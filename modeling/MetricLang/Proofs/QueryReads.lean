-- SUMMARY: What the rules for queries read.
import MetricLang.Proofs.FilterReads

/-!
# Reading queries

A selection and a call can both begin with a name and a parenthesis, and the rule
for queries tries the selection first. It can never be one when the call is read:
the condition of an aggregator may not hold a brace, and every query has one
(`Query.Reads.not_selection`). So the order of the two attempts does not matter.
-/

namespace MetricLang

-- ---------------------------------------------------------------------------
-- Groupings
-- ---------------------------------------------------------------------------

namespace Grouping

/-- The tokens of an entry of a grouping. -/
inductive EntryReads : List Token → String → List Token → Prop
  | star {t : Token} {us : List Token} (isStar : t.isPunct '*')
      (alone : (t.touches (peek us) && !(peek us).isPunct ',' && !(peek us).isPunct '\x7d') = false) :
      EntryReads (t :: us) "*" us
  | name {ts us : List Token} {w : Word} (read : Word.rule.Reads ts w us)
      (first : w.startsWithIdentifier) : EntryReads ts w.text us

theorem reads_entryRule {ts us : List Token} {e : String} :
    entryRule.Reads ts e us ↔ EntryReads ts e us := by
  constructor
  · rintro ⟨h, hts⟩
    unfold entryRule at hts
    split at hts
    · next hstar =>
      obtain ⟨t, vs, _, rfl, htakes⟩ := Probe.takes_of_eq_some hstar
      obtain ⟨rfl, ht⟩ := Probe.takes_punct.mp htakes
      dsimp only at hts
      split at hts
      · cases hts
      · next halone =>
        cases hts
        exact .star ht (by simpa using halone)
    · obtain ⟨w, hw, hfirst, rfl⟩ := Word.reads_nameRule.mp ⟨h, hts⟩
      exact .name hw hfirst
  · intro h
    cases h with
    | star ht halone =>
      refine ⟨Nat.lt_succ_self _, ?_⟩
      simp only [entryRule, (Probe.takes_punct.mpr ⟨rfl, ht⟩).eq_some, halone]
      rfl
    | name hw hfirst =>
      have hread : (Word.nameRule .key).Reads _ _ _ := Word.reads_nameRule.mpr ⟨_, hw, hfirst, rfl⟩
      obtain ⟨rfl, _⟩ := Word.reads_rule.mp hw
      have hstar := Token.isPunct_of_isIdentifier '*' hfirst
      refine ⟨hread.rest_lt, ?_⟩
      simp only [entryRule]
      rw [Probe.punct_eq_none.mpr hstar]
      exact hread.eq_ok

/-- The tokens of a grouping. -/
inductive Reads : List Token → Grouping → List Token → Prop
  | mk {t u : Token} {ts vs us : List Token} {e : String} {es : List String}
      (word : t.isKeyword Keyword.groupBy.spelling) (opened : u.isPunct '\x7b')
      (first : EntryReads ts e vs) (more : Rule.ItemsRead '\x7d' entryRule vs es us) :
      Reads (t :: u :: ts) ⟨e :: es⟩ us

theorem reads_rule {ts us : List Token} {g : Grouping} : rule.Reads ts g us ↔ Reads ts g us := by
  constructor
  · rintro ⟨h, hts⟩
    obtain ⟨_, hword, hts⟩ := bind_eq_ok.mp hts
    obtain ⟨t, vs, _, rfl, hread⟩ := Rule.reads_of_eq_ok hword
    obtain ⟨rfl, ht⟩ := Rule.reads_keyword.mp hread
    obtain ⟨_, hopened, hts⟩ := bind_eq_ok.mp hts
    obtain ⟨u, ws, _, rfl, hread⟩ := Read.reads_of_next hopened
    obtain ⟨rfl, hu⟩ := Rule.reads_punct.mp hread
    obtain ⟨_, hfirst, hts⟩ := bind_eq_ok.mp hts
    obtain ⟨e, xs, _, rfl, he⟩ := Read.reads_of_next hfirst
    obtain ⟨_, hmore, hts⟩ := bind_eq_ok.mp hts
    obtain ⟨es, ys, _, rfl, hes⟩ := Read.reads_of_next hmore
    cases pure_eq_ok.mp hts
    exact .mk ht hu (reads_entryRule.mp he) (Rule.reads_moreItems.mp hes)
  · rintro ⟨ht, hu, he, hes⟩
    have he := reads_entryRule.mpr he
    have hes : Rule.Reads (Rule.moreItems '\x7d' .groupingEnd entryRule) _ _ _ :=
      Rule.reads_moreItems.mpr hes
    have := he.rest_lt
    have := Rule.Reads.rest_lt hes
    refine ⟨by simp only [List.length_cons]; omega, ?_⟩
    refine bind_eq_ok.mpr ⟨_, (Rule.reads_keyword.mpr ⟨rfl, ht⟩).eq_ok, ?_⟩
    refine bind_eq_ok.mpr ⟨_, Read.next_of_reads (Rule.reads_punct.mpr ⟨rfl, hu⟩), ?_⟩
    refine bind_eq_ok.mpr ⟨_, Read.next_of_reads he, ?_⟩
    exact bind_eq_ok.mpr ⟨_, Read.next_of_reads hes, rfl⟩

end Grouping

-- ---------------------------------------------------------------------------
-- Function calls
-- ---------------------------------------------------------------------------

namespace FunctionCall

/-- The tokens of arguments with their parentheses. -/
inductive ArgumentsRead : List Token → List Value → List Token → Prop
  | none {t u : Token} {us : List Token} (opened : t.isPunct '(') (closed : u.isPunct ')') :
      ArgumentsRead (t :: u :: us) [] us
  | some {t : Token} {ts vs us : List Token} {v : Value} {values : List Value}
      (opened : t.isPunct '(') (first : Value.ArgumentReads ts v vs)
      (more : Rule.ItemsRead ')' Value.argument vs values us) :
      ArgumentsRead (t :: ts) (v :: values) us

theorem reads_argumentsRule {ts us : List Token} {values : List Value} :
    argumentsRule.Reads ts values us ↔ ArgumentsRead ts values us := by
  constructor
  · rintro ⟨h, hts⟩
    obtain ⟨_, hopened, hts⟩ := bind_eq_ok.mp hts
    obtain ⟨t, vs, _, rfl, hread⟩ := Rule.reads_of_eq_ok hopened
    obtain ⟨rfl, ht⟩ := Rule.reads_punct.mp hread
    split at hts
    · next hclosed =>
      obtain ⟨u, ws, _, rfl, htakes⟩ := Read.takes_of_next? hclosed
      obtain ⟨rfl, hu⟩ := Probe.takes_punct.mp htakes
      cases pure_eq_ok.mp hts
      exact .none ht hu
    · obtain ⟨_, hfirst, hts⟩ := bind_eq_ok.mp hts
      obtain ⟨v, ws, _, rfl, hv⟩ := Read.reads_of_next hfirst
      obtain ⟨_, hmore, hts⟩ := bind_eq_ok.mp hts
      obtain ⟨values, xs, _, rfl, hvalues⟩ := Read.reads_of_next hmore
      cases pure_eq_ok.mp hts
      exact .some ht (Value.reads_argument.mp hv) (Rule.reads_moreItems.mp hvalues)
  · intro h
    cases h with
    | none ht hu =>
      refine ⟨Nat.lt_succ_of_lt (Nat.lt_succ_self _), ?_⟩
      refine bind_eq_ok.mpr ⟨_, (Rule.reads_punct.mpr ⟨rfl, ht⟩).eq_ok, ?_⟩
      simp only [Read.next?_of_takes (Probe.takes_punct.mpr ⟨rfl, hu⟩)]
      rfl
    | some ht hv hvalues =>
      have hclosed := hv.isPunct_peek (p := ')') (by decide) (by decide)
      have hv := Value.reads_argument.mpr hv
      have hvalues : Rule.Reads (Rule.moreItems ')' .argumentEnd Value.argument) _ _ _ :=
        Rule.reads_moreItems.mpr hvalues
      have := hv.rest_lt
      have := Rule.Reads.rest_lt hvalues
      refine ⟨by simp only [List.length_cons]; omega, ?_⟩
      refine bind_eq_ok.mpr ⟨_, (Rule.reads_punct.mpr ⟨rfl, ht⟩).eq_ok, ?_⟩
      simp only [Read.next?_eq_none.mpr (Probe.punct_eq_none.mpr hclosed)]
      refine bind_eq_ok.mpr ⟨_, Read.next_of_reads hv, ?_⟩
      exact bind_eq_ok.mpr ⟨_, Read.next_of_reads hvalues, rfl⟩

/-- The tokens of a call. -/
inductive Reads : List Token → FunctionCall → List Token → Prop
  | mk {t : Token} {ts us : List Token} {values : List Value} (name : t.isIdentifier)
      (args : ArgumentsRead ts values us) : Reads (t :: ts) ⟨t.text, values⟩ us

theorem reads_rule {ts us : List Token} {f : FunctionCall} :
    rule.Reads ts f us ↔ Reads ts f us := by
  constructor
  · rintro ⟨h, hts⟩
    obtain ⟨_, hname, hts⟩ := bind_eq_ok.mp hts
    obtain ⟨t, vs, _, rfl, hread⟩ := Rule.reads_of_eq_ok hname
    obtain ⟨rfl, ht⟩ := Rule.reads_identifier.mp hread
    obtain ⟨_, hargs, hts⟩ := bind_eq_ok.mp hts
    obtain ⟨values, ws, _, rfl, hvalues⟩ := Read.reads_of_next hargs
    cases pure_eq_ok.mp hts
    exact .mk ht (reads_argumentsRule.mp hvalues)
  · rintro ⟨ht, hvalues⟩
    have hvalues := reads_argumentsRule.mpr hvalues
    refine ⟨Nat.lt_succ_of_lt hvalues.rest_lt, ?_⟩
    refine bind_eq_ok.mpr ⟨_, (Rule.reads_identifier.mpr ⟨rfl, ht⟩).eq_ok, ?_⟩
    exact bind_eq_ok.mpr ⟨_, Read.next_of_reads hvalues, rfl⟩

end FunctionCall

-- ---------------------------------------------------------------------------
-- Aggregators
-- ---------------------------------------------------------------------------

namespace Aggregator

/-- May the token stand in no condition? -/
def endsCondition (t : Token) : Bool := t.isEnd || t.isPunct '\x7b' || t.isPunct '\x7d'

/-- How many parentheses are open after the token. -/
def depthAfter (depth : Nat) (t : Token) : Nat :=
  if t.isPunct '(' then depth + 1 else if t.isPunct ')' then depth - 1 else depth

/-- The tokens of a condition with `depth` open parentheses, up to its own. -/
inductive ConditionReads : Nat → List Token → List Token → List Token → Prop
  | close {t : Token} {us : List Token} (closed : t.isPunct ')') : ConditionReads 0 (t :: us) [] us
  | cons {depth : Nat} {t : Token} {ts us cs : List Token} (inside : endsCondition t = false)
      (goesOn : ¬ (t.isPunct ')' ∧ depth = 0)) (more : ConditionReads (depthAfter depth t) ts cs us) :
      ConditionReads depth (t :: ts) (t :: cs) us

theorem reads_conditionTokens {depth : Nat} {ts cs us : List Token} :
    (conditionTokens depth).Reads ts cs us ↔ ConditionReads depth ts cs us := by
  constructor
  · rintro ⟨h, hts⟩
    induction ts generalizing depth cs with
    | nil => cases hts
    | cons t ts ih =>
      rw [conditionTokens] at hts
      split at hts
      · cases hts
      · next hinside =>
        dsimp only at hts
        split at hts
        · next hclosed =>
          simp only [Bool.and_eq_true, decide_eq_true_eq] at hclosed
          obtain ⟨hclosed, rfl⟩ := hclosed
          cases hts
          exact .close hclosed
        · next hgoes =>
          obtain ⟨more, hmore, hts⟩ := bind_eq_ok.mp hts
          cases pure_eq_ok.mp hts
          exact .cons (by simpa [endsCondition] using hinside) (by simpa using hgoes)
            (ih more.rest_lt hmore)
  · intro h
    induction h with
    | close hclosed =>
      refine ⟨Nat.lt_succ_self _, ?_⟩
      rw [conditionTokens]
      simp [Token.isEnd_of_isPunct hclosed, Token.isPunct_of_ne hclosed (d := '\x7b') (by decide),
        Token.isPunct_of_ne hclosed (d := '\x7d') (by decide), hclosed, Read.ofTail]
    | cons hinside hgoes _ ih =>
      simp only [endsCondition] at hinside
      refine ⟨Nat.lt_succ_of_lt ih.rest_lt, ?_⟩
      rw [conditionTokens, if_neg (by simp [hinside])]
      dsimp only
      rw [if_neg (by simpa using hgoes)]
      exact bind_eq_ok.mpr ⟨_, ih.eq_ok, rfl⟩

/-- Can no condition be read from the tokens, whatever is open before them? -/
def NoCondition (ts : List Token) : Prop :=
  ∀ depth cs us, ¬ ConditionReads depth ts cs us

theorem noCondition_of_brace {t : Token} (ts : List Token) (ht : t.isPunct '\x7b') :
    NoCondition (t :: ts) := by
  intro depth cs us h
  cases h with
  | close hclosed => simpa [ht] using Token.isPunct_of_ne hclosed (d := '\x7b') (by decide)
  | cons hinside _ _ => simp [endsCondition, ht] at hinside

theorem NoCondition.cons {t : Token} {ts : List Token} (ht : t.isPunct ')' = false)
    (h : NoCondition ts) : NoCondition (t :: ts) := by
  intro depth cs us hread
  cases hread with
  | close hclosed => simp [ht] at hclosed
  | cons _ _ hmore => exact h _ _ _ hmore

/-- A condition that goes over the tokens before `us` is as deep behind them as before. -/
def Passes (ts us : List Token) : Prop :=
  ∀ depth cs vs, ConditionReads depth ts cs vs → ∃ cs', ConditionReads depth us cs' vs

namespace Passes

variable {t : Token} {ts vs us : List Token}

theorem refl (ts : List Token) : Passes ts ts := fun _ _ _ h => ⟨_, h⟩

theorem trans (h : Passes ts vs) (h' : Passes vs us) : Passes ts us := by
  intro depth cs ws hread
  obtain ⟨_, hread⟩ := h _ _ _ hread
  exact h' _ _ _ hread

theorem token (hopen : t.isPunct '(' = false) (hclose : t.isPunct ')' = false) :
    Passes (t :: us) us := by
  intro depth cs vs h
  cases h with
  | close hclosed => simp [hclose] at hclosed
  | cons _ _ hmore => exact ⟨_, by simpa [depthAfter, hopen, hclose] using hmore⟩

theorem cons (hopen : t.isPunct '(' = false) (hclose : t.isPunct ')' = false)
    (h : Passes ts us) : Passes (t :: ts) us :=
  (token hopen hclose).trans h

theorem identifier (ht : t.isIdentifier) : Passes (t :: us) us :=
  token (Token.isPunct_of_isIdentifier _ ht) (Token.isPunct_of_isIdentifier _ ht)

/-- Words have no parentheses. -/
theorem word {w : Word} (hw : Word.rule.Reads ts w us) : Passes ts us := by
  obtain ⟨rfl, hstart, hrun, _⟩ := Word.reads_rule.mp hw
  refine .cons (Word.isPunct_of_canStart hstart (by decide) (by decide))
    (Word.isPunct_of_canStart hstart (by decide) (by decide)) ?_
  generalize w.first = t, w.more = more at hrun
  induction more generalizing t with
  | nil => exact .refl us
  | cons u more ih =>
    obtain ⟨hjoins, hrun⟩ := hrun
    simp only [Word.joins, Bool.and_eq_true] at hjoins
    exact .cons (Word.isPunct_of_canContinue hjoins.2 (by decide))
      (Word.isPunct_of_canContinue hjoins.2 (by decide)) (ih u hrun)

theorem noCondition (h : Passes ts us) (hus : NoCondition us) : NoCondition ts := by
  intro depth cs ws hread
  obtain ⟨_, hread⟩ := h _ _ _ hread
  exact hus _ _ _ hread

end Passes

/-- A condition inside a condition is passed over. -/
theorem ConditionReads.pass {depth outer k : Nat} {ts cs cs' us us' : List Token}
    (h : ConditionReads depth ts cs us) (h' : ConditionReads outer ts cs' us')
    (hk : outer = depth + 1 + k) : ∃ cs'', ConditionReads k us cs'' us' := by
  induction h generalizing outer cs' with
  | close hclosed =>
    cases h' with
    | close _ => omega
    | cons _ _ hmore =>
      have hopened := Token.isPunct_of_ne hclosed (d := '(') (by decide)
      have hdepth : outer - 1 = k := by omega
      exact ⟨_, by simpa [depthAfter, hclosed, hopened, hdepth] using hmore⟩
  | @cons depth t _ _ _ hinside hgoes _ ih =>
    cases h' with
    | close _ => omega
    | cons _ _ hmore =>
      refine ih hmore ?_
      have hne : t.isPunct ')' → depth ≠ 0 := fun ht hdepth => hgoes ⟨ht, hdepth⟩
      unfold depthAfter
      split
      · omega
      · split
        · next hclosed =>
          have := hne hclosed
          omega
        · exact hk

/-- The tokens of an aggregator. -/
inductive Reads : List Token → Aggregator → List Token → Prop
  | plain {t u : Token} {us : List Token} (name : t.isIdentifier) (colon : u.isPunct ':') :
      Reads (t :: u :: us) ⟨t.text, none⟩ us
  | condition {t u v : Token} {ts cs us : List Token} (name : t.isIdentifier)
      (opened : u.isPunct '(') (filled : (peek ts).isPunct ')' = false)
      (inside : ConditionReads 0 ts cs (v :: us)) (colon : v.isPunct ':') :
      Reads (t :: u :: ts) ⟨t.text, some (conditionText cs)⟩ us

theorem reads_conditionTail {ts us : List Token} {s : String} : conditionTail.Reads ts s us ↔
    (peek ts).isPunct ')' = false ∧ ∃ cs, ConditionReads 0 ts cs us ∧ s = conditionText cs := by
  constructor
  · rintro ⟨h, hts⟩
    unfold conditionTail at hts
    split at hts
    · cases hts
    · next hfilled =>
      obtain ⟨_, htokens, hts⟩ := bind_eq_ok.mp hts
      obtain ⟨cs, vs, _, rfl, hcs⟩ := Rule.reads_of_eq_ok htokens
      cases pure_eq_ok.mp hts
      exact ⟨Probe.punct_eq_none.mp hfilled, cs, reads_conditionTokens.mp hcs, rfl⟩
  · rintro ⟨hfilled, cs, hcs, rfl⟩
    have hread := reads_conditionTokens.mpr hcs
    refine ⟨hread.rest_lt, ?_⟩
    simp only [conditionTail, Probe.punct_eq_none.mpr hfilled]
    exact bind_eq_ok.mpr ⟨_, hread.eq_ok, rfl⟩

theorem reads_rule {ts us : List Token} {a : Aggregator} : rule.Reads ts a us ↔ Reads ts a us := by
  constructor
  · rintro ⟨h, hts⟩
    obtain ⟨_, hname, hts⟩ := bind_eq_ok.mp hts
    obtain ⟨t, vs, _, rfl, hread⟩ := Rule.reads_of_eq_ok hname
    obtain ⟨rfl, _, ht⟩ := Rule.reads_expect.mp hread
    split at hts
    · next hopened =>
      obtain ⟨u, ws, _, rfl, htakes⟩ := Read.takes_of_next? hopened
      obtain ⟨rfl, hu⟩ := Probe.takes_punct.mp htakes
      obtain ⟨_, hcondition, hts⟩ := bind_eq_ok.mp hts
      obtain ⟨s, xs, _, rfl, hs⟩ := Read.reads_of_next hcondition
      obtain ⟨_, hcolon, hts⟩ := bind_eq_ok.mp hts
      obtain ⟨v, ys, _, rfl, hread⟩ := Read.reads_of_next hcolon
      obtain ⟨rfl, hv⟩ := Rule.reads_punct.mp hread
      obtain ⟨hfilled, cs, hcs, rfl⟩ := reads_conditionTail.mp hs
      cases pure_eq_ok.mp hts
      exact .condition ht hu hfilled hcs hv
    · split at hts
      · next hcolon =>
        obtain ⟨u, ws, _, rfl, hread⟩ := Read.reads_of_next hcolon
        obtain ⟨rfl, hu⟩ := Rule.reads_punct.mp hread
        cases pure_eq_ok.mp hts
        exact .plain ht hu
      · split at hts <;> cases hts
  · intro h
    cases h with
    | @plain t u us ht hu =>
      have hopened : (peek (u :: us)).isPunct '(' = false := Token.isPunct_of_ne hu (by decide)
      refine ⟨Nat.lt_succ_of_lt (Nat.lt_succ_self _), ?_⟩
      refine bind_eq_ok.mpr ⟨_, (Rule.reads_expect.mpr
        ⟨rfl, Token.isEnd_of_isIdentifier ht, ht⟩).eq_ok, ?_⟩
      simp only [Read.next?_eq_none.mpr (Probe.punct_eq_none.mpr hopened),
        Read.next_of_reads (Rule.reads_punct.mpr ⟨rfl, hu⟩)]
      rfl
    | condition ht hu hfilled hcs hv =>
      have hread := reads_conditionTail.mpr ⟨hfilled, _, hcs, rfl⟩
      have := hread.rest_lt
      refine ⟨by simp only [List.length_cons] at *; omega, ?_⟩
      refine bind_eq_ok.mpr ⟨_, (Rule.reads_expect.mpr
        ⟨rfl, Token.isEnd_of_isIdentifier ht, ht⟩).eq_ok, ?_⟩
      simp only [Read.next?_of_takes (Probe.takes_punct.mpr ⟨rfl, hu⟩)]
      refine bind_eq_ok.mpr ⟨_, Read.next_of_reads hread, ?_⟩
      exact bind_eq_ok.mpr ⟨_, Read.next_of_reads (Rule.reads_punct.mpr ⟨rfl, hv⟩), rfl⟩

end Aggregator

-- ---------------------------------------------------------------------------
-- Selections
-- ---------------------------------------------------------------------------

namespace Selection

/-- The tokens of a grouping, or none. -/
inductive GroupingReads : List Token → Option Grouping → List Token → Prop
  | none {ts : List Token}
      (absent : (peek ts).isKeyword Keyword.groupBy.spelling = false) : GroupingReads ts none ts
  | some {ts us : List Token} {g : Grouping} (read : Grouping.Reads ts g us) :
      GroupingReads ts (some g) us

/-- The tokens of functions, up to where no point comes next. -/
inductive FunctionsRead : List Token → List FunctionCall → List Token → Prop
  | nil {ts : List Token} (ends : (peek ts).isPunct '.' = false) : FunctionsRead ts [] ts
  | cons {t : Token} {ts vs us : List Token} {f : FunctionCall} {fs : List FunctionCall}
      (point : t.isPunct '.') (read : FunctionCall.Reads ts f vs) (more : FunctionsRead vs fs us) :
      FunctionsRead (t :: ts) (f :: fs) us

theorem extend_of_functionsRead {n : Nat} {s : Selection} {ts us : List Token}
    {fs : List FunctionCall} (h : FunctionsRead ts fs us) (hts : ts.length < n) :
    ∃ hus, extend (⟨s, ts, hts⟩ : Read n Selection) =
      .ok ⟨{ s with functions := s.functions ++ fs }, us, hus⟩ := by
  induction h generalizing s with
  | nil hends =>
    refine ⟨hts, ?_⟩
    rw [extend, Probe.punct_eq_none.mpr hends]
    simp
  | @cons t ts vs us f fs ht hf _ ih =>
    have hread := FunctionCall.reads_rule.mpr hf
    have hlt : vs.length < n := Nat.lt_trans hread.rest_lt (Nat.lt_of_succ_lt hts)
    obtain ⟨hus, hmore⟩ := ih (s := s.withFunction f) hlt
    refine ⟨hus, ?_⟩
    rw [extend, (Probe.takes_punct.mpr ⟨rfl, ht⟩).eq_some]
    refine bind_eq_ok.mpr ⟨_, Read.next_of_reads hread, ?_⟩
    simpa [withFunction, Read.map, Read.andThen] using hmore

theorem functionsRead_of_extend {n : Nat} {s s' : Selection} {ts us : List Token}
    {hts : ts.length < n} {hus : us.length < n}
    (h : extend (⟨s, ts, hts⟩ : Read n Selection) = .ok ⟨s', us, hus⟩) :
    ∃ fs, FunctionsRead ts fs us ∧ s' = { s with functions := s.functions ++ fs } := by
  induction hk : ts.length using Nat.strongRecOn generalizing s ts with
  | ind k ih =>
    rw [extend] at h
    split at h
    · next hends =>
      cases h
      exact ⟨[], .nil (Probe.punct_eq_none.mp hends), by simp⟩
    · next hpoint =>
      obtain ⟨t, vs, _, rfl, htakes⟩ := Probe.takes_of_eq_some hpoint
      obtain ⟨rfl, ht⟩ := Probe.takes_punct.mp htakes
      obtain ⟨_, hcall, h⟩ := bind_eq_ok.mp h
      obtain ⟨f, ws, hws, rfl, hf⟩ := Read.reads_of_next hcall
      obtain ⟨fs, hfs, rfl⟩ := ih _ (hk ▸ hws) h rfl
      exact ⟨f :: fs, .cons ht (FunctionCall.reads_rule.mp hf) hfs, by simp [withFunction]⟩

/-- The tokens of a selection. -/
inductive Reads : List Token → Selection → List Token → Prop
  | mk {t u : Token} {ts vs ws xs ys us : List Token} {a : Aggregator} {metric : Word}
      {f : Filter} {g : Option Grouping} {fs : List FunctionCall}
      (aggregator : Aggregator.Reads ts a vs) (name : Word.rule.Reads vs metric (t :: ws))
      (first : metric.startsWithIdentifier) (opened : t.isPunct '\x7b')
      (filter : Param.SequenceReads ws f.params (u :: xs)) (closed : u.isPunct '\x7d')
      (grouping : GroupingReads xs g ys) (functions : FunctionsRead ys fs us) :
      Reads ts ⟨some a, metric.text, f, g, fs⟩ us

theorem reads_rule {ts us : List Token} {s : Selection} : rule.Reads ts s us ↔ Reads ts s us := by
  constructor
  · rintro ⟨h, hts⟩
    obtain ⟨_, haggregator, hts⟩ := bind_eq_ok.mp hts
    obtain ⟨a, vs, _, rfl, ha⟩ := Rule.reads_of_eq_ok haggregator
    obtain ⟨_, hmetric, hts⟩ := bind_eq_ok.mp hts
    obtain ⟨m, ws, _, rfl, hm⟩ := Read.reads_of_next hmetric
    obtain ⟨w, hw, hfirst, rfl⟩ := Word.reads_nameRule.mp hm
    split at hts
    · cases hts
    · next hopened =>
      obtain ⟨t, xs, _, rfl, htakes⟩ := Read.takes_of_next? hopened
      obtain ⟨rfl, ht⟩ := Probe.takes_punct.mp htakes
      obtain ⟨_, hfilter, hts⟩ := bind_eq_ok.mp hts
      obtain ⟨f, ys, _, rfl, hf⟩ := Read.reads_of_next hfilter
      obtain ⟨_, hclosed, hts⟩ := bind_eq_ok.mp hts
      obtain ⟨u, zs, hzs, rfl, hread⟩ := Read.reads_of_next hclosed
      obtain ⟨rfl, hu⟩ := Rule.reads_punct.mp hread
      obtain ⟨g, hg, hts⟩ := bind_eq_ok.mp hts
      obtain ⟨fs, hfs, rfl⟩ := functionsRead_of_extend hts
      refine .mk (Aggregator.reads_rule.mp ha) hw hfirst ht (Filter.reads_rule.mp hf) hu ?_ hfs
      unfold groupingAfter at hg
      split at hg
      · obtain ⟨_, hgrouping, hg⟩ := bind_eq_ok.mp hg
        obtain ⟨g, _, _, rfl, hread⟩ := Read.reads_of_next hgrouping
        cases pure_eq_ok.mp hg
        exact .some (Grouping.reads_rule.mp hread)
      · next habsent =>
        cases hg
        exact .none (by simpa using habsent)
  · rintro @⟨t, u, _, vs, ws, xs, ys, _, a, w, f, g, fs, ha, hw, hfirst, ht, hf, hu, hg, hfs⟩
    have ha := Aggregator.reads_rule.mpr ha
    have hm : metricName.Reads _ _ _ := Word.reads_nameRule.mpr ⟨w, hw, hfirst, rfl⟩
    have hf := Filter.reads_rule.mpr hf
    have := ha.rest_lt
    have := hm.rest_lt
    have := hf.rest_lt
    have hxs : xs.length < ts.length := by simp only [List.length_cons] at *; omega
    have hg : ∃ hys, groupingAfter (⟨u, xs, hxs⟩ : Read ts.length Token) = .ok ⟨g, ys, hys⟩ := by
      cases hg with
      | none habsent =>
        exact ⟨hxs, by simp [groupingAfter, habsent, Read.as]⟩
      | some hg =>
        have hby : (peek xs).isKeyword Keyword.groupBy.spelling := by
          obtain ⟨ht⟩ := hg
          exact ht
        have hread := Grouping.reads_rule.mpr hg
        refine ⟨Nat.lt_trans hread.rest_lt hxs, ?_⟩
        simp only [groupingAfter, hby, if_true]
        exact bind_eq_ok.mpr ⟨_, Read.next_of_reads hread, rfl⟩
    obtain ⟨hys, hg⟩ := hg
    obtain ⟨hus, hfs⟩ := extend_of_functionsRead (s := ⟨some a, w.text, f, g, []⟩) hfs hys
    refine ⟨hus, bind_eq_ok.mpr ⟨_, ha.eq_ok, bind_eq_ok.mpr ⟨_, Read.next_of_reads hm, ?_⟩⟩⟩
    simp only [Read.next?_of_takes (Probe.takes_punct.mpr ⟨rfl, ht⟩)]
    refine bind_eq_ok.mpr ⟨_, Read.next_of_reads hf, ?_⟩
    refine bind_eq_ok.mpr ⟨_, Read.next_of_reads (Rule.reads_punct.mpr ⟨rfl, hu⟩), ?_⟩
    exact bind_eq_ok.mpr ⟨_, hg, hfs⟩

/-- No condition can be read from where a selection begins. -/
theorem Reads.noCondition {ts us : List Token} {s : Selection} (h : Reads ts s us) :
    Aggregator.NoCondition ts := by
  obtain ⟨ha, hw, _, ht, _⟩ := h
  have hmetric := (Aggregator.Passes.word hw).noCondition (Aggregator.noCondition_of_brace _ ht)
  cases ha with
  | plain hname hcolon =>
    exact .cons (Token.isPunct_of_isIdentifier _ hname)
      (.cons (Token.isPunct_of_ne hcolon (by decide)) hmetric)
  | @condition t u v ts cs _ hname hopened _ hinside hcolon =>
    refine .cons (Token.isPunct_of_isIdentifier _ hname) fun depth cs' us' hread => ?_
    cases hread with
    | close hclosed => simpa [hopened] using Token.isPunct_of_ne hclosed (d := '(') (by decide)
    | cons _ _ hmore =>
      have hdepth : Aggregator.depthAfter depth u = 0 + 1 + depth := by
        simp [Aggregator.depthAfter, hopened, Nat.add_comm]
      obtain ⟨_, hread⟩ := hinside.pass hmore hdepth
      exact Aggregator.NoCondition.cons (Token.isPunct_of_ne hcolon (by decide)) hmetric _ _ _ hread

end Selection

-- ---------------------------------------------------------------------------
-- Queries
-- ---------------------------------------------------------------------------

/-- The tokens of a call: a name, and in parentheses what is inside and the arguments. -/
inductive CallReads (inside : List Token → β → List Token → Prop)
    (node : String → β → List Value → α) : List Token → α → List Token → Prop
  | mk {t u : Token} {ts vs us : List Token} {x : β} {args : List Value} (name : t.isIdentifier)
      (opened : u.isPunct '(') (read : inside ts x vs)
      (more : Rule.ItemsRead ')' Value.argument vs args us) :
      CallReads inside node (t :: u :: ts) (node t.text x args) us

/-- Reads a call of which `inside` reads what is inside. -/
def callOf (inside : Rule β) (what : Expected) (node : String → β → List Value → α) :
    Rule α := fun ts => do
  let name ← Rule.identifier ts
  let opened ← name.next (Rule.punct '(')
  let body ← inside opened.rest
  let args ← (opened.andThen body).next (Rule.moreItems ')' what Value.argument)
  return args.map (node name.value.text body.value)

theorem reads_callOf {inside : Rule β} {what : Expected} {node : String → β → List Value → α}
    {ts us : List Token} {x : α} :
    (callOf inside what node).Reads ts x us ↔ CallReads inside.Reads node ts x us := by
  constructor
  · rintro ⟨_, hts⟩
    obtain ⟨_, hname, hts⟩ := bind_eq_ok.mp hts
    obtain ⟨t, vs, _, rfl, hread⟩ := Rule.reads_of_eq_ok hname
    obtain ⟨rfl, ht⟩ := Rule.reads_identifier.mp hread
    obtain ⟨_, hopened, hts⟩ := bind_eq_ok.mp hts
    obtain ⟨u, ws, _, rfl, hread⟩ := Read.reads_of_next hopened
    obtain ⟨rfl, hu⟩ := Rule.reads_punct.mp hread
    obtain ⟨_, hinside, hts⟩ := bind_eq_ok.mp hts
    obtain ⟨body, xs, _, rfl, hbody⟩ := Rule.reads_of_eq_ok hinside
    obtain ⟨_, hmore, hts⟩ := bind_eq_ok.mp hts
    obtain ⟨args, ys, _, rfl, hargs⟩ := Read.reads_of_next hmore
    cases pure_eq_ok.mp hts
    exact .mk ht hu hbody (Rule.reads_moreItems.mp hargs)
  · rintro ⟨ht, hu, hbody, hargs⟩
    have hargs : Rule.Reads (Rule.moreItems ')' what Value.argument) _ _ _ :=
      Rule.reads_moreItems.mpr hargs
    have := hbody.rest_lt
    have := hargs.rest_lt
    refine ⟨by simp only [List.length_cons]; omega, ?_⟩
    refine bind_eq_ok.mpr ⟨_, (Rule.reads_identifier.mpr ⟨rfl, ht⟩).eq_ok, ?_⟩
    refine bind_eq_ok.mpr ⟨_, Read.next_of_reads (Rule.reads_punct.mpr ⟨rfl, hu⟩), ?_⟩
    refine bind_eq_ok.mpr ⟨_, hbody.eq_ok, ?_⟩
    exact bind_eq_ok.mpr ⟨_, Read.next_of_reads hargs, rfl⟩

namespace Query

/-- The tokens of a query. -/
inductive Reads : List Token → Query → List Token → Prop
  | selection {ts us : List Token} {s : Selection} (read : Selection.Reads ts s us) :
      Reads ts (.selection s) us
  | call {t u : Token} {ts vs us : List Token} {body : Query} {args : List Value}
      (name : t.isIdentifier) (opened : u.isPunct '(') (inside : Reads ts body vs)
      (more : Rule.ItemsRead ')' Value.argument vs args us) :
      Reads (t :: u :: ts) (.call t.text body args) us

/-- No condition can be read from where a query begins. -/
theorem Reads.noCondition {ts us : List Token} {q : Query} (h : Reads ts q us) :
    Aggregator.NoCondition ts := by
  induction h with
  | selection hs => exact hs.noCondition
  | call hname hopened _ _ ih =>
    exact .cons (Token.isPunct_of_isIdentifier _ hname)
      (.cons (Token.isPunct_of_ne hopened (by decide)) ih)

/-- What begins like a call of something that holds no condition is no selection. -/
theorem not_selection {t u : Token} {ts us : List Token} {s : Selection} (hu : u.isPunct '(')
    (hts : Aggregator.NoCondition ts) : ¬ Selection.Reads (t :: u :: ts) s us := by
  rintro ⟨ha, _⟩
  cases ha with
  | plain _ hcolon => simpa [hu] using Token.isPunct_of_ne hcolon (d := '(') (by decide)
  | condition _ _ _ hinside _ => exact hts _ _ _ hinside

theorem callRule_eq : callRule = callOf rule .argumentEnd .call := by
  funext ts
  rw [callRule]
  rfl

theorem reads_callRule {ts us : List Token} {q : Query} :
    Rule.Reads callRule ts q us ↔ CallReads (Rule.Reads rule) .call ts q us := by
  rw [callRule_eq, reads_callOf]

theorem reads_of_rule (n : Nat) {ts us : List Token} {q : Query} (hn : ts.length < n)
    (h : Rule.Reads rule ts q us) : Reads ts q us := by
  induction n generalizing ts us q with
  | zero => exact absurd hn (Nat.not_lt_zero _)
  | succ n ih =>
    obtain ⟨h, hts⟩ := h
    rw [rule] at hts
    split at hts
    · next hselection =>
      obtain ⟨s, vs, _, rfl, hs⟩ := Rule.reads_of_eq_ok hselection
      cases hts
      exact .selection (Selection.reads_rule.mp hs)
    · split at hts
      · next hread =>
        cases hts
        obtain ⟨ht, hu, hbody, hargs⟩ := reads_callRule.mp ⟨h, hread⟩
        exact .call ht hu (ih (by simp only [List.length_cons] at hn; omega) hbody) hargs
      · cases hts

theorem reads_rule {ts us : List Token} {q : Query} : Rule.Reads rule ts q us ↔ Reads ts q us := by
  refine ⟨reads_of_rule (ts.length + 1) (Nat.lt_succ_self _), fun h => ?_⟩
  induction h with
  | selection hs =>
    have hread := Selection.reads_rule.mpr hs
    refine ⟨hread.rest_lt, ?_⟩
    rw [rule, hread.eq_ok]
    rfl
  | @call t u ts vs us body args ht hu hbody hargs ih =>
    have hcall : Rule.Reads callRule _ _ us := reads_callRule.mpr (.mk ht hu ih hargs)
    refine ⟨hcall.rest_lt, ?_⟩
    rw [rule]
    split
    · next hselection =>
      obtain ⟨s, ws, _, rfl, hs⟩ := Rule.reads_of_eq_ok hselection
      exact absurd (Selection.reads_rule.mp hs) (not_selection hu hbody.noCondition)
    · rw [hcall.eq_ok]

end Query

end MetricLang
