-- SUMMARY: The condition of an aggregator is what its parentheses enclose, with single spaces.
import MetricLang.Proofs.CanonicalText

/-!
# What conditions look like

The condition of an aggregator goes from its parenthesis to the one that closes it.
`outline` takes what stands in quotes out of a text, and of the text of a condition it
leaves the outlines of its tokens with single spaces between them (`outlines_conditionText`).
The parentheses of this outline are those of the tokens, so they are balanced, and it has
no braces.
-/

namespace MetricLang

-- ---------------------------------------------------------------------------
-- Texts without what is quoted
-- ---------------------------------------------------------------------------

/-- The characters outside quotes, and the quotes themselves. The text begins inside of
    the given quotes, if any; a backslash there takes the next character with it. -/
def outline : Option Quote → List Char → List Char
  | _, [] => []
  | none, c :: cs => c :: outline (Quote.ofChar? c) cs
  | some q, '\\' :: _ :: cs => outline (some q) cs
  | some q, c :: cs => if c = q.char then c :: outline none cs else outline (some q) cs

theorem outline_of_readBody? {q : Quote} {cs value rest : List Char}
    (h : q.readBody? cs = some (value, rest)) :
    outline (some q) cs = q.char :: outline none rest := by
  fun_induction Quote.readBody? q cs generalizing value rest with
  | case1 => cases h
  | case2 c cs ih =>
    rcases Option.map_eq_some_iff.mp h with ⟨⟨v, r⟩, hr, he⟩
    cases he
    rw [outline]
    exact ih hr
  | case3 cs hslash =>
    cases h
    rw [outline.eq_def]
    simp
  | case4 => cases h
  | case5 c cs hslash hquote hplain ih =>
    rcases Option.map_eq_some_iff.mp h with ⟨⟨v, r⟩, hr, he⟩
    cases he
    rw [outline.eq_def]
    simp [hquote, ih hr]

/-- What is left of the characters without what is quoted, whatever follows them. -/
def Outlines (cs ds : List Char) : Prop :=
  ∀ rest, outline none (cs ++ rest) = ds ++ outline none rest

namespace Outlines

variable {cs cs' ds ds' : List Char}

theorem nil : Outlines [] [] := fun _ => rfl

theorem append (h : Outlines cs ds) (h' : Outlines cs' ds') : Outlines (cs ++ cs') (ds ++ ds') := by
  intro rest
  rw [List.append_assoc, h, h', List.append_assoc]

theorem eq (h : Outlines cs ds) : outline none cs = ds := by
  simpa [outline] using h []

theorem of_forall_mem (h : ∀ c ∈ cs, Quote.ofChar? c = none) : Outlines cs cs := by
  intro rest
  induction cs with
  | nil => rfl
  | cons c cs ih =>
    rcases List.forall_mem_cons.mp h with ⟨hquote, hcs⟩
    rw [List.cons_append, outline, hquote, ih hcs, List.cons_append]

theorem wrap {q : Quote} {s : String} (h : IsLine s) :
    Outlines (q.wrap s).toList [q.char, q.char] := by
  intro rest
  have hread := q.readBody?_escape rest (FeedsGuarded.of_not_mem (IsLine.not_mem h))
  simp only [q.toList_wrap, List.cons_append, List.append_assoc, List.nil_append, outline,
    Quote.ofChar?_char, outline_of_readBody? hread]

end Outlines

/-- How many parentheses are open after the characters, if none is closed that is not
    open. -/
def openAfter? (depth : Nat) : List Char → Option Nat
  | [] => some depth
  | c :: cs =>
    if c = '(' then openAfter? (depth + 1) cs
    else if c = ')' then if depth = 0 then none else openAfter? (depth - 1) cs
    else openAfter? depth cs

theorem openAfter?_append (depth : Nat) (cs ds : List Char) :
    openAfter? depth (cs ++ ds) = (openAfter? depth cs).bind (openAfter? · ds) := by
  fun_induction openAfter? depth cs with
  | case1 => rfl
  | case2 depth cs ih => simpa [openAfter?] using ih
  | case3 cs => simp [openAfter?]
  | case4 depth cs hdepth _ ih => simpa [openAfter?, hdepth] using ih
  | case5 depth c cs hopen hclose ih => simpa [openAfter?, hopen, hclose] using ih

theorem openAfter?_of_forall_mem {cs : List Char} (h : ∀ c ∈ cs, c ≠ '(' ∧ c ≠ ')')
    (depth : Nat) : openAfter? depth cs = some depth := by
  induction cs with
  | nil => rfl
  | cons c cs ih =>
    rcases List.forall_mem_cons.mp h with ⟨⟨hopen, hclose⟩, hcs⟩
    rw [openAfter?, if_neg hopen, if_neg hclose, ih hcs]

-- ---------------------------------------------------------------------------
-- Tokens without what is quoted
-- ---------------------------------------------------------------------------

namespace Token

/-- What a token shows outside quotes. -/
def outline (t : Token) : List Char :=
  match t.kind with
  | .string q => [q.char, q.char]
  | _ => t.text.toList

/-- The parenthesis that the token is. -/
def paren? (t : Token) : Option Char :=
  if t.isPunct '(' then some '(' else if t.isPunct ')' then some ')' else none

theorem outline_of_isPlain {t : Token} (h : t.kind.isPlain) : t.outline = t.text.toList := by
  unfold outline
  split
  · simp_all [TokenKind.isPlain]
  · rfl

theorem outline_of_isPunct {t : Token} {c : Char} (h : t.isPunct c) : t.outline = [c] := by
  simp_all [isPunct, outline]

end Token

namespace Lexed

variable {t : Token} {us : List Token}

/-- A token shows as it is spelled, but for a string, of which the quotes show. -/
theorem outline_cases (h : Lexed (t :: us)) (ht : t.isEnd = false) :
    (∃ q : Quote, t.source = q.wrap t.text ∧ IsLine t.text ∧ t.outline = [q.char, q.char]) ∨
      (t.source = t.text ∧ t.outline = t.text.toList ∧ t.text.toList ≠ [] ∧
        ∀ c ∈ t.text.toList, isPlainChar c) := by
  by_cases hplain : t.kind.isPlain
  · rcases h.exists_text ht with ⟨q, kind, text, taken, rest, rfl, hfit, _⟩
    rcases hfit.plain hplain with ⟨rfl, hne, _⟩
    exact .inr ⟨Token.source_of_isPlain hplain, Token.outline_of_isPlain hplain, hne,
      h.isPlainChar_of_mem hplain⟩
  · cases hkind : t.kind with
    | string q =>
      exact .inl ⟨q, by simp [Token.source, hkind], h.isLine_of_string hkind,
        by simp [Token.outline, hkind]⟩
    | endOfInput => simp [Token.isEnd, hkind] at ht
    | identifier | integer | float | punct => exact absurd (by rw [hkind]; rfl) hplain

theorem outlines_source (h : Lexed (t :: us)) (ht : t.isEnd = false) :
    Outlines t.source.toList t.outline := by
  rcases h.outline_cases ht with ⟨q, hsource, hline, hout⟩ | ⟨hsource, hout, _, hplain⟩
  · rw [hsource, hout]
    exact .wrap hline
  · rw [hsource, hout]
    exact .of_forall_mem fun c hc => Quote.ofChar?_of_isPlainChar (hplain c hc)

/-- No blank shows of a token. -/
theorem not_isBlank_of_mem_outline (h : Lexed (t :: us)) (ht : t.isEnd = false) :
    ∀ c ∈ t.outline, isBlank c = false := by
  intro c hc
  rcases h.outline_cases ht with ⟨q, _, _, hout⟩ | ⟨_, hout, _, hplain⟩
  · have hquote : isBlank q.char = false := by cases q <;> decide
    simp_all
  · rw [hout] at hc
    exact not_isBlank_of_isPlainChar (hplain c hc)

theorem outline_ne_nil (h : Lexed (t :: us)) (ht : t.isEnd = false) : t.outline ≠ [] := by
  rcases h.outline_cases ht with ⟨q, _, _, hout⟩ | ⟨_, hout, hne, _⟩
  · exact hout ▸ List.cons_ne_nil _ _
  · exact hout ▸ hne

/-- The first and the last character of a token show. -/
theorem head?_source (h : Lexed (t :: us)) (ht : t.isEnd = false) :
    t.source.toList.head? = t.outline.head? ∧ t.source.toList.getLast? = t.outline.getLast? := by
  rcases h.outline_cases ht with ⟨q, hsource, _, hout⟩ | ⟨hsource, hout, _, _⟩
  · rw [hsource, hout, q.toList_wrap, ← List.cons_append]
    exact ⟨rfl, List.getLast?_concat⟩
  · rw [hsource, hout]
    exact ⟨rfl, rfl⟩

theorem source_ne_nil (h : Lexed (t :: us)) (ht : t.isEnd = false) : t.source.toList ≠ [] := by
  intro hnil
  have hhead := (h.head?_source ht).1
  rw [hnil, List.head?_nil, eq_comm, List.head?_eq_none_iff] at hhead
  exact h.outline_ne_nil ht hhead

/-- A mark shows only of the token that it is. -/
theorem isPunct_of_mem_outline (h : Lexed (t :: us)) (ht : t.isEnd = false) {c : Char}
    (hc : c ∈ t.outline) (hmark : isMark c) : t.isPunct c := by
  rcases h.exists_text ht with ⟨p, kind, text, taken, rest, rfl, hfit, _⟩
  rcases Lexeme.kind_cases hfit.2 with
    ⟨q, hkind, _⟩ | ⟨hkind, hread⟩ | ⟨hkind, hread⟩ | ⟨hkind, d, _, _, htext⟩
  · simp only at hkind
    simp_all [Token.outline, q.not_isMark]
  · have hplain : kind.isPlain := by rcases hkind with rfl | rfl <;> rfl
    rw [Token.outline_of_isPlain hplain] at hc
    simp [not_isMark_of_isNumberChar (isNumberChar_of_mem_readNumber? hread c hc)] at hmark
  · obtain rfl : kind = .identifier := hkind
    have hplain : TokenKind.identifier.isPlain := rfl
    rw [Token.outline_of_isPlain hplain] at hc
    simp [isMark, endsToken, isIdentifierPart_of_readIdentifier? hread c hc] at hmark
  · simp only at hkind htext
    have htext : text = String.singleton d := String.toList_inj.mp (by simpa using htext)
    subst hkind htext
    have hcd : c = d := by simpa [Token.outline] using hc
    exact hcd ▸ isPunct_singleton _ _ _

/-- Of the parentheses of a text, those that are tokens show. -/
theorem openAfter?_outline (h : Lexed (t :: us)) (ht : t.isEnd = false) (depth : Nat) :
    openAfter? depth t.outline = openAfter? depth t.paren?.toList := by
  unfold Token.paren?
  split
  · next hopen => rw [Token.outline_of_isPunct hopen, Option.toList_some]
  · next hopen =>
    split
    · next hclose => rw [Token.outline_of_isPunct hclose, Option.toList_some]
    · next hclose =>
      apply openAfter?_of_forall_mem
      intro c hc
      constructor
      · rintro rfl
        exact hopen (h.isPunct_of_mem_outline ht hc (by decide))
      · rintro rfl
        exact hclose (h.isPunct_of_mem_outline ht hc (by decide))

end Lexed

-- ---------------------------------------------------------------------------
-- Conditions without what is quoted
-- ---------------------------------------------------------------------------

namespace Aggregator

/-- What the text of a condition shows outside quotes. -/
def conditionOutline : List Token → List Char
  | [] => []
  | t :: ts => t.outline ++ (Piece.charsOf (spaceAfter t ts) ++ conditionOutline ts)

theorem toList_conditionText (t : Token) (ts : List Token) :
    (conditionText (t :: ts)).toList
      = t.source.toList ++ (Piece.charsOf (spaceAfter t ts) ++ (conditionText ts).toList) := by
  rw [← charsOf_conditionPieces, conditionPieces, Piece.charsOf_cons, Piece.charsOf_append,
    charsOf_conditionPieces]
  rfl

/-- There is no more than a space after a token, and none after the last. -/
theorem charsOf_spaceAfter (t : Token) (ts : List Token) :
    Piece.charsOf (spaceAfter t ts) = [] ∨ (Piece.charsOf (spaceAfter t ts) = [' '] ∧ ts ≠ []) := by
  cases ts with
  | nil => exact .inl rfl
  | cons u ts =>
    rw [spaceAfter]
    split
    · exact .inl rfl
    · exact .inr ⟨rfl, List.cons_ne_nil _ _⟩

section

variable {cs us : List Token}

theorem outlines_conditionText (h : Lexed (cs ++ us)) (hcs : ∀ t ∈ cs, t.isEnd = false) :
    Outlines (conditionText cs).toList (conditionOutline cs) := by
  induction cs with
  | nil => exact .nil
  | cons t cs ih =>
    rcases List.forall_mem_cons.mp hcs with ⟨ht, hcs⟩
    have hspace : Outlines (Piece.charsOf (spaceAfter t cs)) (Piece.charsOf (spaceAfter t cs)) := by
      rcases charsOf_spaceAfter t cs with hspace | ⟨hspace, _⟩ <;> rw [hspace] <;> exact fun _ => rfl
    rw [toList_conditionText]
    exact (Lexed.outlines_source h ht).append (hspace.append (ih h.tail hcs))

theorem openAfter?_conditionOutline (h : Lexed (cs ++ us)) (hcs : ∀ t ∈ cs, t.isEnd = false)
    (depth : Nat) :
    openAfter? depth (conditionOutline cs) = openAfter? depth (cs.filterMap Token.paren?) := by
  induction cs generalizing depth with
  | nil => rfl
  | cons t cs ih =>
    rcases List.forall_mem_cons.mp hcs with ⟨ht, hcs⟩
    have hspace (d : Nat) : openAfter? d (Piece.charsOf (spaceAfter t cs)) = some d := by
      rcases charsOf_spaceAfter t cs with hspace | ⟨hspace, _⟩ <;> rw [hspace] <;> rfl
    calc openAfter? depth (t.outline ++ (Piece.charsOf (spaceAfter t cs) ++ conditionOutline cs))
      _ = (openAfter? depth t.outline).bind (openAfter? · (conditionOutline cs)) := by
        simp only [openAfter?_append, hspace, Option.bind_some]
      _ = (openAfter? depth t.paren?.toList).bind (openAfter? · (cs.filterMap Token.paren?)) := by
        simp only [Lexed.openAfter?_outline h ht, ih h.tail hcs]
      _ = openAfter? depth (t.paren?.toList ++ cs.filterMap Token.paren?) :=
        (openAfter?_append _ _ _).symm
      _ = openAfter? depth ((t :: cs).filterMap Token.paren?) := by
        cases hparen : t.paren? <;> simp [hparen]

/-- The parentheses of a condition are closed in it. -/
theorem ConditionReads.openAfter? {depth : Nat} {ts : List Token} (h : ConditionReads depth ts cs us) :
    openAfter? depth (cs.filterMap Token.paren?) = some 0 := by
  induction h with
  | close _ => rfl
  | @cons depth t ts us cs _ hgoes _ ih =>
    by_cases hopen : t.isPunct '('
    · have hparen : t.paren? = some '(' := by simp [Token.paren?, hopen]
      simpa [hparen, MetricLang.openAfter?, depthAfter, hopen] using ih
    · by_cases hclose : t.isPunct ')'
      · have hparen : t.paren? = some ')' := by simp [Token.paren?, hopen, hclose]
        have hdepth : depth ≠ 0 := fun hdepth => hgoes ⟨hclose, hdepth⟩
        simpa [hparen, MetricLang.openAfter?, depthAfter, hopen, hclose, hdepth] using ih
      · have hparen : t.paren? = none := by simp [Token.paren?, hopen, hclose]
        simpa [hparen, depthAfter, hopen, hclose] using ih

theorem ConditionReads.endsCondition_of_mem {depth : Nat} {ts : List Token}
    (h : ConditionReads depth ts cs us) : ∀ t ∈ cs, endsCondition t = false := by
  induction h with
  | close _ => simp
  | cons hinside _ _ ih => exact List.forall_mem_cons.mpr ⟨hinside, ih⟩

/-- A mark shows only of a token of the condition that it is. -/
theorem exists_isPunct_of_mem_conditionOutline (h : Lexed (cs ++ us))
    (hcs : ∀ t ∈ cs, t.isEnd = false) {c : Char} (hc : c ∈ conditionOutline cs)
    (hmark : isMark c) : ∃ t ∈ cs, t.isPunct c := by
  induction cs with
  | nil => cases hc
  | cons t cs ih =>
    rcases List.forall_mem_cons.mp hcs with ⟨ht, hcs⟩
    rcases List.mem_append.mp hc with hc | hc
    · exact ⟨t, List.mem_cons_self, Lexed.isPunct_of_mem_outline h ht hc hmark⟩
    · rcases List.mem_append.mp hc with hc | hc
      · rcases charsOf_spaceAfter t cs with hspace | ⟨hspace, _⟩
        · simp [hspace] at hc
        · rw [hspace, List.mem_singleton] at hc
          simp [hc, isMark_blank] at hmark
      · rcases ih h.tail hcs hc with ⟨u, hu, hpunct⟩
        exact ⟨u, List.mem_cons_of_mem t hu, hpunct⟩

theorem head?_conditionText (h : Lexed (cs ++ us)) (hcs : ∀ t ∈ cs, t.isEnd = false) :
    ∀ c ∈ (conditionText cs).toList.head?, isBlank c = false := by
  cases cs with
  | nil => simp [conditionText]
  | cons t cs =>
    rcases List.forall_mem_cons.mp hcs with ⟨ht, hcs⟩
    intro c hc
    rw [toList_conditionText, List.head?_append_of_ne_nil _ (Lexed.source_ne_nil h ht),
      (Lexed.head?_source h ht).1] at hc
    exact Lexed.not_isBlank_of_mem_outline h ht c (List.mem_of_mem_head? hc)

theorem getLast?_conditionText (h : Lexed (cs ++ us)) (hcs : ∀ t ∈ cs, t.isEnd = false) :
    ∀ c ∈ (conditionText cs).toList.getLast?, isBlank c = false := by
  induction cs with
  | nil => simp [conditionText]
  | cons t cs ih =>
    rcases List.forall_mem_cons.mp hcs with ⟨ht, hcs⟩
    intro c hc
    cases cs with
    | nil =>
      rw [conditionText, (Lexed.head?_source h ht).2] at hc
      exact Lexed.not_isBlank_of_mem_outline h ht c (List.mem_of_mem_getLast? hc)
    | cons u cs =>
      have hu := hcs u List.mem_cons_self
      have hne : (conditionText (u :: cs)).toList ≠ [] := by
        rw [toList_conditionText]
        exact List.append_ne_nil_of_left_ne_nil (Lexed.source_ne_nil h.tail hu) _
      rw [toList_conditionText, ← List.append_assoc, List.getLast?_append_of_ne_nil _ hne] at hc
      exact ih h.tail hcs c hc

/-- No two blanks of a condition are next to each other outside quotes. -/
theorem isChain_conditionOutline (h : Lexed (cs ++ us)) (hcs : ∀ t ∈ cs, t.isEnd = false) :
    (conditionOutline cs).IsChain fun c d => ¬ (isBlank c ∧ isBlank d) := by
  induction cs with
  | nil => exact List.isChain_nil
  | cons t cs ih =>
    rcases List.forall_mem_cons.mp hcs with ⟨ht, hcs⟩
    have hshows := Lexed.not_isBlank_of_mem_outline h ht
    have htoken : t.outline.IsChain fun c d => ¬ (isBlank c ∧ isBlank d) :=
      (List.pairwise_of_forall_mem_list fun c hc _ _ hboth => by simp [hshows c hc] at hboth).isChain
    -- what follows the token may begin with a blank, but the token does not end with one
    refine List.isChain_append.mpr ⟨htoken, ?_, fun c hc _ _ hboth => ?_⟩
    · rcases charsOf_spaceAfter t cs with hspace | ⟨hspace, hne⟩
      · simpa [hspace] using ih h.tail hcs
      · rcases List.exists_cons_of_ne_nil hne with ⟨u, cs, rfl⟩
        have hu := hcs u List.mem_cons_self
        rw [hspace, List.singleton_append]
        refine List.isChain_cons.mpr ⟨fun d hd hboth => ?_, ih h.tail hcs⟩
        rw [conditionOutline, List.head?_append_of_ne_nil _ (Lexed.outline_ne_nil h.tail hu)] at hd
        simp [Lexed.not_isBlank_of_mem_outline h.tail hu d (List.mem_of_mem_head? hd)] at hboth
    · simp [hshows c (List.mem_of_mem_getLast? hc)] at hboth

end

/-- Is the text of a condition free of braces and of needless blanks, and are its
    parentheses balanced? What stands in quotes does not count. -/
structure IsTidy (c : String) : Prop where
  closesQuotes : ∀ rest, outline none (c.toList ++ rest) = outline none c.toList ++ outline none rest
  balanced : openAfter? 0 (outline none c.toList) = some 0
  unbraced : '\x7b' ∉ outline none c.toList ∧ '\x7d' ∉ outline none c.toList
  head : ∀ d ∈ c.toList.head?, isBlank d = false
  last : ∀ d ∈ c.toList.getLast?, isBlank d = false
  spaced : (outline none c.toList).IsChain fun d e => ¬ (isBlank d ∧ isBlank e)

theorem ConditionReads.isTidy {ts cs us : List Token} (hts : Lexed ts)
    (h : ConditionReads 0 ts cs us) : IsTidy (conditionText cs) := by
  have hcs := h.isEnd_of_mem
  rcases h.eq_append with ⟨u, rfl, _⟩
  have houtlines := outlines_conditionText hts hcs
  have hbrace {d : Char} (hmark : isMark d) (hends : ∀ t : Token, t.isPunct d → endsCondition t) :
      d ∉ outline none (conditionText cs).toList := by
    intro hd
    rw [houtlines.eq] at hd
    rcases exists_isPunct_of_mem_conditionOutline hts hcs hd hmark with ⟨t, ht, hpunct⟩
    exact Bool.false_ne_true ((h.endsCondition_of_mem t ht).symm.trans (hends t hpunct))
  exact {
    closesQuotes := fun rest => houtlines.eq ▸ houtlines rest
    balanced := by
      rw [houtlines.eq, openAfter?_conditionOutline hts hcs]
      exact h.openAfter?
    unbraced := ⟨hbrace (by decide) fun t ht => by simp [endsCondition, ht],
      hbrace (by decide) fun t ht => by simp [endsCondition, ht]⟩
    head := head?_conditionText hts hcs
    last := getLast?_conditionText hts hcs
    spaced := houtlines.eq ▸ isChain_conditionOutline hts hcs }

/-- The condition of an aggregator is what stands between its parenthesis and the one that
    closes it. Its text is tidy, and the text of the aggregator, with a colon, is read as
    the aggregator again. -/
theorem condition_is_captured {text : String} {ts us : List Token} {name c : String}
    (hline : IsLine text) (hts : tokenize {} text = .ok ts)
    (h : rule.Reads ts ⟨name, some c⟩ us) :
    (∃ t opened cs closed colon, ts = t :: opened :: (cs ++ closed :: colon :: us) ∧
      t.isIdentifier ∧ t.text = name ∧ opened.isPunct '(' ∧ closed.isPunct ')' ∧
      colon.isPunct ':' ∧ openAfter? 0 (cs.filterMap Token.paren?) = some 0 ∧
      c = conditionText cs) ∧
    IsTidy c ∧
    ∃ row, tokenize {} (Aggregator.text ⟨name, some c⟩ ++ ":") = .ok row ∧
      rule.complete row = .ok ⟨name, some c⟩ := by
  have hlexed : Lexed ts := by
    rw [tokenize_eq_tokensAt] at hts
    exact ⟨.start, text.toList, ts, by simpa [IsLine] using hline, hts, List.suffix_refl ts⟩
  have hreads := reads_rule.mp h
  have hagain : ∃ row, tokenize {} (Aggregator.text ⟨name, some c⟩ ++ ":") = .ok row ∧
      rule.complete row = .ok ⟨name, some c⟩ := by
    rcases (hreads.legible hlexed).reads_text (p := .start) (tokensAt_nil {} _) with
      ⟨row, hrow, hread⟩
    refine ⟨row, ?_, Rule.complete_eq_ok.mpr ⟨_, reads_rule.mpr hread, rfl⟩⟩
    rw [tokenize_eq_tokensAt, String.toList_append]
    exact hrow
  cases hreads with
  | @condition t opened colon _ cs _ hname hopened hfilled hinside hcolon =>
    refine ⟨?_, hinside.isTidy hlexed.tail.tail, hagain⟩
    rcases hinside.eq_append with ⟨closed, rfl, hclosed⟩
    exact ⟨t, opened, cs, closed, colon, rfl, hname, rfl, hopened, hclosed, hcolon,
      hinside.openAfter?, rfl⟩

/-- A condition with a parenthesis in quotes and with two blanks in a row. -/
theorem condition_is_captured_nested :
    let text := "max( f(\")\")  or (b)):m"
    let a : Aggregator := ⟨"max", some "f(\")\") or (b)"⟩
    ∃ ts us, (IsLine text ∧ tokenize {} text = .ok ts ∧ rule.Reads ts a us) ∧
      IsTidy "f(\")\") or (b)" ∧ ∃ row, tokenize {} (a.text ++ ":") = .ok row ∧
        rule.complete row = .ok a := by
  intro text a
  generalize hts : [⟨.identifier, "max", ⟨0, 1, 1⟩, 3⟩, ⟨.punct, "(", ⟨3, 1, 4⟩, 4⟩,
    ⟨.identifier, "f", ⟨5, 1, 6⟩, 6⟩, ⟨.punct, "(", ⟨6, 1, 7⟩, 7⟩,
    ⟨.string .double, ")", ⟨7, 1, 8⟩, 10⟩, ⟨.punct, ")", ⟨10, 1, 11⟩, 11⟩,
    ⟨.identifier, "or", ⟨13, 1, 14⟩, 15⟩, ⟨.punct, "(", ⟨16, 1, 17⟩, 17⟩,
    ⟨.identifier, "b", ⟨17, 1, 18⟩, 18⟩, ⟨.punct, ")", ⟨18, 1, 19⟩, 19⟩,
    ⟨.punct, ")", ⟨19, 1, 20⟩, 20⟩, ⟨.punct, ":", ⟨20, 1, 21⟩, 21⟩,
    ⟨.identifier, "m", ⟨21, 1, 22⟩, 22⟩, Token.endAt ⟨22, 1, 23⟩] = ts
  have hline : IsLine text := by decide
  have htokens : tokenize {} text = .ok ts := by
    apply tokenize_of_cutWithin (n := 30)
    rw [← hts]
    decide +kernel
  have hread : rule.Reads ts a [⟨.identifier, "m", ⟨21, 1, 22⟩, 22⟩, Token.endAt ⟨22, 1, 23⟩] := by
    rw [← hts]
    exact ⟨by decide, rfl⟩
  exact ⟨ts, _, ⟨hline, htokens, hread⟩, (condition_is_captured hline htokens hread).2⟩

end Aggregator

end MetricLang
