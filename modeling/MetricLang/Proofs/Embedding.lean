-- SUMMARY: What is read of a whole input is read of it in front of a closing bracket too.
import MetricLang.Proofs.Derivation
import MetricLang.Proofs.Layout
import MetricLang.Proofs.Statements

/-!
# Inputs inside brackets

A filter, a query or an expression that is all of an input can stand in brackets: in
front of a closing parenthesis or brace, whatever comes after that, the same is read and
all from the bracket on is left.

Filters and queries look at the token after them only to see that they end there, and so
do expressions and their parts (`Token.Stops`). An expression also tries a call only
where it finds no query, and more tokens could make one. The call settles this by itself:
a selection needs a colon after the parenthesis that closes the call, where the bracket or
a part of the same input stands, and a call of a query would be all that the call of an
expression holds, so that it would have been found before.
-/

namespace MetricLang

-- ---------------------------------------------------------------------------
-- Closing brackets
-- ---------------------------------------------------------------------------

/-- Does the token close parentheses or braces? -/
def Token.IsClosing (t : Token) : Prop := t.isPunct ')' ∨ t.isPunct '\x7d'

namespace Token.IsClosing

variable {t : Token}

theorem isPunct_eq_false {c : Char} (h : t.IsClosing) (hc : c ∉ [')', '\x7d']) :
    t.isPunct c = false := by
  obtain h | h := h
  · exact Token.isPunct_of_ne h (by rintro rfl; simp at hc)
  · exact Token.isPunct_of_ne h (by rintro rfl; simp at hc)

theorem not_isAt {binds : Bool} (h : t.IsClosing) (op : Operator) : ¬ Operator.IsAt binds op t := by
  rintro ⟨_, ht⟩
  simp [h.isPunct_eq_false (c := op.symbol) (by cases op <;> decide)] at ht

theorem ofSigned?_eq_none (h : t.IsClosing) : Operator.ofSigned? t = none := by
  obtain h | h := h <;> simp [Operator.ofSigned?, Phrase.isNumber_of_isPunct h]

theorem endsQuery (h : t.IsClosing) : Query.endsBefore t := by
  obtain h | h := h <;> exact Query.endsBefore_of_isPunct h (by decide)

end Token.IsClosing

-- ---------------------------------------------------------------------------
-- Tokens that phrases stop at
-- ---------------------------------------------------------------------------

/-- Which operators a phrase goes on with: none, those that bind, or all. -/
def Phrase.level : Phrase → Nat
  | .operand _ => 0
  | .term _ | .factors _ _ => 1
  | .expression _ | .terms _ _ => 2

/-- Does the token go on with no phrase of the level? Unlike what may come after a phrase
    (`Symbol.EndsBefore`), it can be a token that makes no sense there. -/
structure Token.Stops (level : Nat) (t : Token) : Prop where
  colon : t.isPunct ':' = false
  query : Query.endsBefore t
  factors : 1 ≤ level → ∀ op, ¬ Operator.IsAt true op t
  terms : 2 ≤ level → (∀ op, ¬ Operator.IsAt false op t) ∧ Operator.ofSigned? t = none

/-- What stops a phrase stops its parts. -/
theorem Token.Stops.mono {level level' : Nat} {t : Token} (h : t.Stops level)
    (hle : level' ≤ level) : t.Stops level' :=
  ⟨h.colon, h.query, fun hone => h.factors (Nat.le_trans hone hle),
    fun htwo => h.terms (Nat.le_trans htwo hle)⟩

theorem Token.IsClosing.stops {t : Token} (h : t.IsClosing) (level : Nat) : t.Stops level :=
  ⟨h.isPunct_eq_false (by decide), h.endsQuery, fun _ => h.not_isAt,
    fun _ => ⟨h.not_isAt, h.ofSigned?_eq_none⟩⟩

/-- What may come after a term stops it. -/
theorem Symbol.EndsBefore.stops {t : Token} (h : Symbol.term.EndsBefore t) : t.Stops 1 :=
  ⟨h.isPunct_eq_false (by decide),
    (h.mono (by decide) (by decide) : Symbol.operand.EndsBefore t).query,
    fun _ => h.not_isAt fun op => by cases op <;> decide, fun htwo => absurd htwo (by decide)⟩

-- ---------------------------------------------------------------------------
-- Expressions in front of what stops them
-- ---------------------------------------------------------------------------

/-- What comes next in the second row is like what comes next in the first, or it is what
    follows the second row. -/
theorem Tracks.like_peek_or {us us' ts ts' : List Token} {p : Token → Prop}
    (h : Tracks us us' ts ts') (hend : us.length = ts.length → p (peek us')) :
    Token.Like (peek ts) (peek ts') ∨ p (peek ts') := by
  obtain hlt | hle := Nat.lt_or_ge us.length ts.length
  · exact .inl (h.like_peek hlt)
  · obtain ⟨rfl, rfl⟩ := h.eq_of_length hle
    exact .inr (hend rfl)

theorem Rule.ItemsRead.peek_ne_colon {ts us : List Token} {vs : List Value}
    (h : Rule.ItemsRead ')' Value.argument ts vs us) : (peek ts).isPunct ':' = false := by
  cases h with
  | nil hclosed => exact Token.isPunct_of_ne hclosed (by decide)
  | cons _ hcomma _ _ => exact Token.isPunct_of_ne hcomma (by decide)

namespace Phrase

/-- The end of a term or of an expression begins with no colon, unless one comes after it. -/
theorem Reads.peek_ne_colon {p : Phrase} {ts us : List Token} (h : Reads p ts us)
    (hp : p.symbol = .factors ∨ p.symbol = .terms) (hus : (peek us).isPunct ':' = false) :
    (peek ts).isPunct ':' = false := by
  cases h with
  | number | group | query | call | term | expression => simp [symbol] at hp
  | factorsEnd | termsEnd => exact hus
  | @factor _ _ _ _ op _ _ _ hop | @sum _ _ _ _ op _ _ _ hop =>
    exact Token.isPunct_of_ne hop.2 (by cases op <;> decide)
  | signed hsigned => exact Token.isPunct_of_isNumber _ (Operator.isNumber_of_ofSigned? hsigned)

/-- What phrases read of a row they read of every row that tracks it, if what follows
    there stops them and no colon comes after the phrase. -/
theorem Reads.of_tracks {p : Phrase} {us us' ts ts' vs : List Token} (h : Reads p ts vs)
    (htracks : Tracks us us' ts ts') (hle : us.length ≤ vs.length)
    (hcolon : (peek vs).isPunct ':' = false)
    (hend : us.length = vs.length → (peek us').Stops p.level) :
    ∃ vs', Tracks us us' vs vs' ∧ Reads p ts' vs' := by
  induction h generalizing ts' with
  | number ht hd =>
    obtain ⟨t', vs', rfl, hlike, _, hvs⟩ := htracks.uncons hle
    exact ⟨vs', hvs, .number (hlike.isNumber ▸ ht) (hlike.2 ▸ hd)⟩
  | group ht hinside hu ih =>
    have hrest := hinside.rest_le
    rw [List.length_cons] at hrest
    obtain ⟨t', row, rfl, hlike, _, htracks⟩ := htracks.uncons (by omega)
    obtain ⟨row', hrow, hinside'⟩ := ih htracks (Nat.le_succ_of_le hle)
      (Token.isPunct_of_ne hu (by decide)) fun heq => by simp only [List.length_cons] at heq; omega
    obtain ⟨u', vs', rfl, hlike', _, hvs⟩ := hrow.uncons hle
    exact ⟨vs', hvs, .group (hlike.isPunct _ ▸ ht) hinside' (hlike'.isPunct _ ▸ hu)⟩
  | query hq =>
    obtain ⟨vs', hvs, hq'⟩ := Query.local_reads hq htracks hle fun heq => (hend heq).query
    exact ⟨vs', hvs, .query hq'⟩
  | @call t u ts vs ws e args hnone ht hu he hargs ih =>
    have hrest := hargs.rest_lt
    have hrest' := he.rest_le
    obtain ⟨t', u', row, rfl, hlike, hlike', _, _, htracks⟩ := htracks.uncons₂ (by omega)
    obtain ⟨vs', hvs, he'⟩ := ih htracks (by omega) hargs.peek_ne_colon fun heq => by omega
    obtain ⟨ws', hws, hargs'⟩ := Value.local_arguments hargs hvs hle fun _ => rfl
    refine ⟨ws', hws, ?_⟩
    rw [hlike.2]
    refine .call (fun q xs hq => ?_) (hlike.isIdentifier ▸ ht) (hlike'.isPunct _ ▸ hu) he' hargs'
    cases hq with
    | selection hs =>
      have hcolon' : (peek ws').isPunct ':' = false := by
        obtain hlike | hstops := hws.like_peek_or hend
        · exact hlike.isPunct _ ▸ hcolon
        · exact hstops.colon
      exact he'.not_selection (hlike'.isPunct _ ▸ hu) hargs' hcolon' hs
    | call _ _ hbody hmore =>
      -- The query is all of the inside, so the same call was a query in the first row.
      obtain ⟨rfl, _⟩ := he'.rest_of_query hbody hmore
      cases he.operand_of_single with
      | query hq => exact hnone _ _ (.call ht hu hq hargs)
  | term hfirst hmore ih ih' =>
    have hrest := hmore.rest_le
    obtain ⟨row, hrow, hfirst'⟩ := ih htracks (by omega) (hmore.peek_ne_colon (.inl rfl) hcolon)
      fun heq => (hend (by omega)).mono (Nat.le_succ _)
    obtain ⟨vs', hvs, hmore'⟩ := ih' hrow hle hcolon hend
    exact ⟨vs', hvs, .term hfirst' hmore'⟩
  | factorsEnd hends =>
    refine ⟨ts', htracks, .factorsEnd fun op hop => ?_⟩
    obtain hlike | hstops := htracks.like_peek_or hend
    · exact hends op ((Operator.isAt_of_like hlike).mpr hop)
    · exact hstops.factors (Nat.le_refl 1) op hop
  | factor hop hoperand hmore ih ih' =>
    have hrest := hmore.rest_le
    have hrest' := hoperand.rest_le
    have hnext := hmore.peek_ne_colon (.inl rfl) hcolon
    obtain ⟨o', row, rfl, hlike, _, htracks⟩ := htracks.uncons (by omega)
    obtain ⟨row', hrow, hoperand'⟩ := ih htracks (by omega) hnext
      fun heq => (hend (by omega)).mono (Nat.le_succ _)
    obtain ⟨vs', hvs, hmore'⟩ := ih' hrow hle hcolon hend
    exact ⟨vs', hvs, .factor ((Operator.isAt_of_like hlike).mp hop) hoperand' hmore'⟩
  | expression hfirst hmore ih ih' =>
    have hrest := hmore.rest_le
    obtain ⟨row, hrow, hfirst'⟩ := ih htracks (by omega) (hmore.peek_ne_colon (.inr rfl) hcolon)
      fun heq => (hend (by omega)).mono (Nat.le_succ _)
    obtain ⟨vs', hvs, hmore'⟩ := ih' hrow hle hcolon hend
    exact ⟨vs', hvs, .expression hfirst' hmore'⟩
  | termsEnd hends hunsigned =>
    refine ⟨ts', htracks, ?_⟩
    obtain hlike | hstops := htracks.like_peek_or hend
    · exact .termsEnd (fun op hop => hends op ((Operator.isAt_of_like hlike).mpr hop))
        ((Operator.ofSigned?_of_like hlike).symm.trans hunsigned)
    · obtain ⟨hends', hunsigned'⟩ := hstops.terms (Nat.le_refl 2)
      exact .termsEnd hends' hunsigned'
  | sum hop hlast hmore ih ih' =>
    have hrest := hmore.rest_le
    have hrest' := hlast.rest_le
    have hnext := hmore.peek_ne_colon (.inr rfl) hcolon
    obtain ⟨o', row, rfl, hlike, _, htracks⟩ := htracks.uncons (by omega)
    obtain ⟨row', hrow, hlast'⟩ := ih htracks (by omega) hnext
      fun heq => (hend (by omega)).mono (Nat.le_succ _)
    obtain ⟨vs', hvs, hmore'⟩ := ih' hrow hle hcolon hend
    exact ⟨vs', hvs, .sum ((Operator.isAt_of_like hlike).mp hop) hlast' hmore'⟩
  | signed hsigned hlast hmore ih ih' =>
    have hrest := hmore.rest_le
    have hrest' := hlast.rest_le
    have hnext := hmore.peek_ne_colon (.inr rfl) hcolon
    obtain ⟨o', row, rfl, hlike, _, htracks⟩ := htracks.uncons (by omega)
    obtain ⟨row', hrow, hlast'⟩ := ih htracks (by omega) hnext
      fun heq => (hend (by omega)).mono (Nat.le_succ _)
    obtain ⟨vs', hvs, hmore'⟩ := ih' hrow hle hcolon hend
    exact ⟨vs', hvs, .signed (Operator.ofSigned?_of_like hlike ▸ hsigned) hlast' hmore'⟩

end Phrase

-- ---------------------------------------------------------------------------
-- Whole inputs
-- ---------------------------------------------------------------------------

theorem Local.of_tracks {ends : Token → Bool} {reads : List Token → α → List Token → Prop}
    {us us' ts ts' : List Token} {x : α} (h : Local ends reads) (hread : reads ts x us)
    (htracks : Tracks us us' ts ts') (hend : ends (peek us')) : reads ts' x us' := by
  obtain ⟨vs', hvs, hread'⟩ := h hread htracks (Nat.le_refl _) fun _ => hend
  obtain ⟨_, rfl⟩ := hvs.eq_of_length (Nat.le_refl _)
  exact hread'

theorem Expression.of_tracks {us us' ts ts' : List Token} {e : Expression}
    (h : Phrase.Reads (.expression e) ts us) (htracks : Tracks us us' ts ts')
    (hend : (peek us).isEnd) (hclosing : (peek us').IsClosing) :
    Phrase.Reads (.expression e) ts' us' := by
  obtain ⟨vs', hvs, h'⟩ := h.of_tracks htracks (Nat.le_refl _) (Token.isPunct_of_isEnd _ hend)
    fun _ => hclosing.stops _
  obtain ⟨_, rfl⟩ := hvs.eq_of_length (Nat.le_refl _)
  exact h'

/-- A rule that reads all tokens of an input leaves its end. -/
theorem Rule.reads_of_complete {rule : Rule α} {ts : List Token} {last : Token} {x : α}
    (hshows : ∀ {ts us x}, rule.Reads ts x us → ∃ s, Shows s ts us)
    (hts : ∀ t ∈ ts, t.isEnd = false) (hlast : last.isEnd)
    (h : rule.complete (ts ++ [last]) = .ok x) : rule.Reads (ts ++ [last]) x [last] := by
  obtain ⟨us, hread, hus⟩ := Rule.complete_eq_ok.mp h
  obtain ⟨s, pre, heq, hpre, _⟩ := hshows hread
  obtain ⟨_, rfl⟩ := eq_of_append_end heq hts hpre hlast hus
  exact hread

section

variable {ts us : List Token} {last c : Token} (hts : ∀ t ∈ ts, t.isEnd = false)
  (hlast : last.isEnd) (hc : c.IsClosing)

include hts hlast hc

end

end MetricLang
