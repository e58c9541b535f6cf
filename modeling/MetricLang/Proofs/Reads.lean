-- SUMMARY: What a rule reads, as a relation between tokens, and what the basic rules read.
import MetricLang.Language

/-!
# What rules read

`Rule.Reads rule ts x us` says that the rule reads `x` from the front of `ts` and
leaves `us`. The relation forgets errors and the bookkeeping of lengths. Each rule
has one theorem that says what it reads in terms of the rules it is made of.
-/

namespace MetricLang

/-- The rule reads `x` from the front of `ts` and leaves `us`. -/
def Rule.Reads (rule : Rule α) (ts : List Token) (x : α) (us : List Token) : Prop :=
  ∃ h, rule ts = .ok ⟨x, us, h⟩

/-- The probe takes `x` from the front of `ts` and leaves `us`. -/
def Probe.Takes (probe : Probe α) (ts : List Token) (x : α) (us : List Token) : Prop :=
  ∃ h, probe ts = some ⟨x, us, h⟩

theorem bind_eq_ok {e : Except ε α} {f : α → Except ε β} {b : β} :
    (e >>= f) = .ok b ↔ ∃ a, e = .ok a ∧ f a = .ok b := by
  cases e <;> simp [bind, Except.bind]

theorem pure_eq_ok {a b : α} : (pure a : Except ε α) = .ok b ↔ a = b := by
  simp [pure, Except.pure]

theorem toOption_eq_some {e : Except ε α} {a : α} : e.toOption = some a ↔ e = .ok a := by
  cases e <;> simp [Except.toOption]

theorem exists_eq_ok {e : Except ε α} (h : e.isOk) : ∃ a, e = .ok a := by
  cases e with
  | ok a => exact ⟨a, rfl⟩
  | error _ => cases h

theorem exists_eq_ok_and {e : Except ε α} {p : α → Bool} (h : e.toOption.any p) :
    ∃ a, e = .ok a ∧ p a := by
  cases e with
  | ok a => exact ⟨a, rfl, h⟩
  | error _ => cases h

theorem exists_eq_error {e : Except ε α} (h : e.isOk = false) : ∃ x, e = .error x := by
  cases e with
  | ok _ => cases h
  | error x => exact ⟨x, rfl⟩

theorem mapError_eq_ok {e : Except ε α} {f : ε → ε'} {a : α} :
    e.mapError f = .ok a ↔ e = .ok a := by
  constructor <;> intro h <;> cases e <;> cases h <;> rfl

namespace Rule.Reads

variable {rule : Rule α} {ts us vs : List Token} {x y : α}

theorem rest_lt (h : rule.Reads ts x us) : us.length < ts.length := h.1

theorem eq_ok (h : rule.Reads ts x us) : rule ts = .ok ⟨x, us, h.rest_lt⟩ := h.2

/-- A rule reads one thing only. -/
theorem unique (h : rule.Reads ts x us) (h' : rule.Reads ts y vs) : x = y ∧ us = vs := by
  cases h.eq_ok.symm.trans h'.eq_ok
  exact ⟨rfl, rfl⟩

theorem ne_error {e : SyntaxError} (h : rule.Reads ts x us) : rule ts ≠ .error e := by
  simp [h.eq_ok]

end Rule.Reads

theorem Probe.Takes.eq_some {probe : Probe α} {ts us : List Token} {x : α}
    (h : probe.Takes ts x us) : probe ts = some ⟨x, us, h.1⟩ := h.2

theorem Rule.reads_of_eq_ok {rule : Rule α} {ts : List Token} {r : Read ts.length α}
    (h : rule ts = .ok r) : ∃ x us hlt, r = ⟨x, us, hlt⟩ ∧ rule.Reads ts x us :=
  ⟨r.value, r.rest, r.rest_lt, rfl, r.rest_lt, h⟩

theorem Probe.takes_of_eq_some {probe : Probe α} {ts : List Token} {r : Read ts.length α}
    (h : probe ts = some r) : ∃ x us hlt, r = ⟨x, us, hlt⟩ ∧ probe.Takes ts x us :=
  ⟨r.value, r.rest, r.rest_lt, rfl, r.rest_lt, h⟩

namespace Read

variable {x : α} {ts us : List Token} {hlt : ts.length < n} {rule : Rule β} {probe : Probe β}
  {r : Read n β} {y : β}

theorem reads_of_next (h : (⟨x, ts, hlt⟩ : Read n α).next rule = .ok r) :
    ∃ y us hlt, r = ⟨y, us, hlt⟩ ∧ rule.Reads ts y us := by
  obtain ⟨y, hy, hr⟩ := bind_eq_ok.mp h
  cases hr
  exact ⟨y.value, y.rest, _, rfl, y.rest_lt, hy⟩

theorem next_of_reads (h : rule.Reads ts y us) :
    (⟨x, ts, hlt⟩ : Read n α).next rule = .ok ⟨y, us, Nat.lt_trans h.rest_lt hlt⟩ :=
  bind_eq_ok.mpr ⟨_, h.eq_ok, rfl⟩

theorem takes_of_next? (h : (⟨x, ts, hlt⟩ : Read n α).next? probe = some r) :
    ∃ y us hlt, r = ⟨y, us, hlt⟩ ∧ probe.Takes ts y us := by
  obtain ⟨y, hy, hr⟩ := Option.map_eq_some_iff.mp h
  cases hr
  exact ⟨y.value, y.rest, _, rfl, y.rest_lt, hy⟩

theorem next?_of_takes (h : probe.Takes ts y us) :
    (⟨x, ts, hlt⟩ : Read n α).next? probe = some ⟨y, us, Nat.lt_trans h.1 hlt⟩ := by
  simp [next?, h.eq_some, andThen]

theorem next?_eq_none : (⟨x, ts, hlt⟩ : Read n α).next? probe = none ↔ probe ts = none := by
  simp [next?]

end Read

-- ---------------------------------------------------------------------------
-- Single tokens
-- ---------------------------------------------------------------------------

namespace Token

theorem isEnd_of_isPunct {t : Token} {c : Char} (h : t.isPunct c) : t.isEnd = false := by
  simp_all [isPunct, isEnd]

theorem isEnd_of_isIdentifier {t : Token} (h : t.isIdentifier) : t.isEnd = false := by
  simp_all [isIdentifier, isEnd]

theorem isIdentifier_of_isKeyword {t : Token} {word : String} (h : t.isKeyword word) :
    t.isIdentifier := by
  simp_all [isKeyword]

theorem isEnd_of_isKeyword {t : Token} {word : String} (h : t.isKeyword word) :
    t.isEnd = false :=
  isEnd_of_isIdentifier (isIdentifier_of_isKeyword h)

theorem isEnd_of_isNumber {t : Token} (h : t.isNumber) : t.isEnd = false := by
  simp only [isNumber, decide_eq_true_eq] at h
  obtain h | h := h <;> simp [isEnd, h]

theorem isPunct_of_isIdentifier {t : Token} (c : Char) (h : t.isIdentifier) :
    t.isPunct c = false := by
  simp_all [isIdentifier, isPunct]

theorem isPunct_of_isNumber {t : Token} (c : Char) (h : t.isNumber) : t.isPunct c = false := by
  simp only [isNumber, decide_eq_true_eq] at h
  obtain h | h := h <;> simp [isPunct, h]

theorem isPunct_unique {t : Token} {c d : Char} (h : t.isPunct c) (h' : t.isPunct d) : c = d := by
  simp only [isPunct, decide_eq_true_eq] at h h'
  have := congrArg String.toList (h.2.symm.trans h'.2)
  simpa only [String.toList_singleton, List.cons.injEq, and_true] using this

/-- A token is one punctuation character at most. -/
theorem isPunct_of_ne {t : Token} {c d : Char} (h : t.isPunct c) (hne : c ≠ d) :
    t.isPunct d = false := by
  rw [← Bool.not_eq_true]
  exact fun h' => hne (isPunct_unique h h')

theorem isKeyword_of_isPunct {t : Token} {c : Char} (word : String) (h : t.isPunct c) :
    t.isKeyword word = false := by
  simp_all [isKeyword, isIdentifier, isPunct]

theorem isKeyword_of_isNumber {t : Token} (word : String) (h : t.isNumber) :
    t.isKeyword word = false := by
  simp only [isNumber, decide_eq_true_eq] at h
  obtain h | h := h <;> simp [isKeyword, isIdentifier, h]

theorem isKeyword_of_isEnd {t : Token} (word : String) (h : t.isEnd) : t.isKeyword word = false := by
  simp_all [isKeyword, isIdentifier, isEnd]

theorem isPunct_of_isEnd {t : Token} (c : Char) (h : t.isEnd) : t.isPunct c = false := by
  simp_all [isPunct, isEnd]

/-- A token spells one keyword at most. -/
theorem isKeyword_unique {t : Token} {k l : Keyword} (h : t.isKeyword k.spelling)
    (h' : t.isKeyword l.spelling) : k = l := by
  simp only [isKeyword, Bool.and_eq_true] at h h'
  have hsame : sameLetters k.spelling l.spelling := by
    simp_all [sameLetters]
  revert hsame
  cases k <;> cases l <;> decide

theorem isKeyword_of_ne {t : Token} {k l : Keyword} (h : t.isKeyword k.spelling) (hne : k ≠ l) :
    t.isKeyword l.spelling = false := by
  rw [← Bool.not_eq_true]
  exact fun h' => hne (isKeyword_unique h h')

@[simp] theorem touches_absent (t : Token) : t.touches .absent = false := rfl

end Token

@[simp] theorem peek_cons (t : Token) (ts : List Token) : peek (t :: ts) = t := rfl

@[simp] theorem peek_nil : peek [] = .absent := rfl

/-- What comes next is the first token unless it is the end of the input. -/
theorem exists_of_peek {ts : List Token} (h : (peek ts).isEnd = false) :
    ∃ us, ts = peek ts :: us := by
  cases ts with
  | nil => cases h
  | cons t ts => exact ⟨ts, rfl⟩

namespace Probe

variable {p : Token → Bool} {ts us : List Token} {t : Token} {c : Char}

theorem takes_take : (take p).Takes ts t us ↔ ts = t :: us ∧ t.isEnd = false ∧ p t = true := by
  constructor
  · rintro ⟨h, ht⟩
    cases ts with
    | nil => cases ht
    | cons u ts =>
      simp only [take] at ht
      split at ht
      · cases ht
        simp_all
      · cases ht
  · rintro ⟨rfl, hend, hp⟩
    exact ⟨Nat.lt_succ_self _, by simp [take, hend, hp, Read.ofTail]⟩

theorem take_eq_none : take p ts = none ↔ (peek ts).isEnd = true ∨ p (peek ts) = false := by
  cases ts with
  | nil => simp [take, Token.absent, Token.endAt, Token.isEnd]
  | cons t ts =>
    cases hend : t.isEnd <;> cases hp : p t <;> simp [take, hend, hp]

theorem takes_punct : (punct c).Takes ts t us ↔ ts = t :: us ∧ t.isPunct c = true := by
  rw [punct, takes_take]
  exact ⟨fun ⟨h, _, hp⟩ => ⟨h, hp⟩, fun ⟨h, hp⟩ => ⟨h, Token.isEnd_of_isPunct hp, hp⟩⟩

theorem punct_eq_none : punct c ts = none ↔ (peek ts).isPunct c = false := by
  rw [punct, take_eq_none, or_iff_right_of_imp]
  intro hend
  cases hp : (peek ts).isPunct c with
  | false => rfl
  | true => simp [Token.isEnd_of_isPunct hp] at hend

theorem takes_keyword {k : Keyword} :
    (keyword k).Takes ts t us ↔ ts = t :: us ∧ t.isKeyword k.spelling = true := by
  rw [keyword, takes_take]
  exact ⟨fun ⟨h, _, hp⟩ => ⟨h, hp⟩, fun ⟨h, hp⟩ => ⟨h, Token.isEnd_of_isKeyword hp, hp⟩⟩

theorem keyword_eq_none {k : Keyword} :
    keyword k ts = none ↔ (peek ts).isKeyword k.spelling = false := by
  rw [keyword, take_eq_none, or_iff_right_of_imp]
  intro hend
  cases hp : (peek ts).isKeyword k.spelling with
  | false => rfl
  | true => simp [Token.isEnd_of_isKeyword hp] at hend

theorem takes_adjacentPunct {prev : Token} : (adjacentPunct prev c).Takes ts t us ↔
    ts = t :: us ∧ t.isPunct c = true ∧ prev.touches t = true := by
  rw [adjacentPunct, takes_take, Bool.and_eq_true]
  exact ⟨fun ⟨h, _, hp⟩ => ⟨h, hp⟩, fun ⟨h, hp⟩ => ⟨h, Token.isEnd_of_isPunct hp.1, hp⟩⟩

theorem adjacentPunct_eq_none {prev : Token} : adjacentPunct prev c ts = none ↔
    ((peek ts).isPunct c && prev.touches (peek ts)) = false := by
  rw [adjacentPunct, take_eq_none, or_iff_right_of_imp]
  intro hend
  cases hp : (peek ts).isPunct c with
  | false => rfl
  | true => simp [Token.isEnd_of_isPunct hp] at hend

end Probe

namespace Rule

variable {ts us : List Token} {t : Token} {c : Char}

theorem reads_expect {what : Expected} {p : Token → Bool} :
    (expect what p).Reads ts t us ↔ ts = t :: us ∧ t.isEnd = false ∧ p t = true := by
  rw [← Probe.takes_take, Reads, Probe.Takes]
  unfold expect
  cases Probe.take p ts <;> simp

theorem reads_punct : (punct c).Reads ts t us ↔ ts = t :: us ∧ t.isPunct c = true := by
  rw [punct, reads_expect]
  exact ⟨fun ⟨h, _, hp⟩ => ⟨h, hp⟩, fun ⟨h, hp⟩ => ⟨h, Token.isEnd_of_isPunct hp, hp⟩⟩

theorem reads_keyword {spelling : String} :
    (keyword spelling).Reads ts t us ↔ ts = t :: us ∧ t.isKeyword spelling = true := by
  rw [keyword, reads_expect]
  exact ⟨fun ⟨h, _, hp⟩ => ⟨h, hp⟩, fun ⟨h, hp⟩ => ⟨h, Token.isEnd_of_isKeyword hp, hp⟩⟩

theorem reads_identifier : identifier.Reads ts t us ↔ ts = t :: us ∧ t.isIdentifier = true := by
  rw [identifier, reads_expect]
  exact ⟨fun ⟨h, _, hp⟩ => ⟨h, hp⟩, fun ⟨h, hp⟩ => ⟨h, Token.isEnd_of_isIdentifier hp, hp⟩⟩

-- ---------------------------------------------------------------------------
-- Whole inputs and lists
-- ---------------------------------------------------------------------------

theorem complete_eq_ok {rule : Rule α} {x : α} :
    rule.complete ts = .ok x ↔ ∃ us, rule.Reads ts x us ∧ (peek us).isEnd = true := by
  rw [complete, bind_eq_ok]
  constructor
  · rintro ⟨r, hr, h⟩
    obtain ⟨_, hend, hx⟩ := bind_eq_ok.mp h
    obtain ⟨y, us, hlt, rfl, hreads⟩ := reads_of_eq_ok hr
    cases pure_eq_ok.mp hx
    refine ⟨us, hreads, ?_⟩
    simp only [expectEnd] at hend
    split at hend
    · assumption
    · cases hend
  · rintro ⟨us, hr, hend⟩
    exact ⟨_, hr.eq_ok, by simp [expectEnd, hend, bind, Except.bind, pure, Except.pure]⟩

/-- Items after commas, up to the closing bracket. -/
inductive ItemsRead (close : Char) (item : Rule α) : List Token → List α → List Token → Prop
  | nil {t : Token} {us : List Token} (closed : t.isPunct close) :
      ItemsRead close item (t :: us) [] us
  | cons {t : Token} {ts vs us : List Token} {x : α} {xs : List α}
      (goesOn : t.isPunct close = false) (comma : t.isPunct ',') (first : item.Reads ts x vs)
      (more : ItemsRead close item vs xs us) : ItemsRead close item (t :: ts) (x :: xs) us

theorem reads_moreItems {close : Char} {what : Expected} {item : Rule α} {xs : List α} :
    Reads (moreItems close what item) ts xs us ↔ ItemsRead close item ts xs us := by
  constructor
  · rintro ⟨h, hts⟩
    induction hn : ts.length using Nat.strongRecOn generalizing ts xs with
    | ind n ih =>
      rw [moreItems] at hts
      split at hts
      · next hclosed =>
        obtain ⟨t, vs, _, rfl, htakes⟩ := Probe.takes_of_eq_some hclosed
        obtain ⟨rfl, hc⟩ := Probe.takes_punct.mp htakes
        cases hts
        exact .nil hc
      · next hclose =>
        split at hts
        · cases hts
        · next hcomma =>
          obtain ⟨t, vs, _, rfl, htakes⟩ := Probe.takes_of_eq_some hcomma
          obtain ⟨rfl, hc⟩ := Probe.takes_punct.mp htakes
          obtain ⟨_, hnext, hts⟩ := bind_eq_ok.mp hts
          obtain ⟨x, ws, hws, rfl, hx⟩ := Read.reads_of_next hnext
          obtain ⟨more, hmore, hts⟩ := bind_eq_ok.mp hts
          cases pure_eq_ok.mp hts
          exact .cons (Probe.punct_eq_none.mp hclose) hc hx
            (ih _ (hn ▸ hws) more.rest_lt hmore rfl)
  · intro h
    induction h with
    | nil hc =>
      refine ⟨Nat.lt_succ_self _, ?_⟩
      rw [moreItems, (Probe.takes_punct.mpr ⟨rfl, hc⟩).eq_some]
      rfl
    | cons hclose hc hx _ ih =>
      have hlt := hx.rest_lt
      have hmore := Reads.rest_lt ih
      refine ⟨by simp only [List.length_cons]; omega, ?_⟩
      rw [moreItems, Probe.punct_eq_none.mpr hclose, (Probe.takes_punct.mpr ⟨rfl, hc⟩).eq_some]
      exact bind_eq_ok.mpr ⟨_, Read.next_of_reads hx, bind_eq_ok.mpr ⟨_, Reads.eq_ok ih, rfl⟩⟩

theorem ItemsRead.rest_lt {close : Char} {item : Rule α} {xs : List α}
    (h : ItemsRead close item ts xs us) : us.length < ts.length := by
  have hread : Reads (moreItems close .argumentEnd item) ts xs us := reads_moreItems.mpr h
  exact hread.1

end Rule

end MetricLang
