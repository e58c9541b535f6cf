-- SUMMARY: The conditions of aggregators come back from the texts that they are kept as.
import MetricLang.Proofs.Closed
import MetricLang.Proofs.QueryText

/-!
# Printed conditions

A condition is kept as its tokens, one space between those that do not touch. What
follows a token there is like what followed it in the text it was read from, so the
lexer cuts the condition into the same tokens again, and the same ones touch.
-/

namespace MetricLang

-- ---------------------------------------------------------------------------
-- Tokens and the blanks before them
-- ---------------------------------------------------------------------------

theorem endsToken_of_not_isPlainChar {c : Char} (h : isPlainChar c = false) : endsToken c := by
  have hpoint : c ≠ '.' := by
    rintro rfl
    simp [isPlainChar] at h
  simp only [isPlainChar, Bool.or_eq_false_iff] at h
  simp [endsToken, h.1, hpoint]

theorem Piece.exists_gap_of_place {ps : List Piece} {p : Position} (h : place p ps = []) :
    ∀ q ∈ ps, ∃ cs, q = gap cs := by
  induction ps generalizing p with
  | nil => simp
  | cons q ps ih =>
    cases q with
    | gap cs => exact List.forall_mem_cons.mpr ⟨⟨cs, rfl⟩, ih h⟩
    | token kind text cs => cases h

/-- In a line, nothing but blanks comes before the first token. -/
theorem exists_blanks_of_tokensAt {p : Position} {cs : List Char} {t : Token} {us : List Token}
    (h : tokensAt {} p cs = .ok (t :: us)) (ht : t.isEnd = false)
    (hline : ∀ c ∈ cs, isLineEnd c = false) :
    ∃ blanks kind text taken rest, cs = blanks ++ (taken ++ rest) ∧ (∀ c ∈ blanks, isBlank c) ∧
      t = ⟨kind, text, p.after blanks, ((p.after blanks).after taken).offset⟩ ∧
      (Piece.token kind text taken).Fits {} rest ∧
      tokensAt {} ((p.after blanks).after taken) rest = .ok us := by
  obtain ⟨as, kind, text, taken, rest, rfl, hnil, ht, hcut, hfit, hus⟩ :=
    @exists_pieces_of_tokensAt _ _ [] _ _ h ht
  have hskip : skipTrivia true (taken ++ rest) ≠ [] := by
    rw [skipTrivia_of_none hfit.1]
    exact hfit.token_ne_nil
  have hblanks := hcut.isBlank_of_mem hline hskip
  refine ⟨_, kind, text, taken, rest, rfl, fun c hc => ?_, ht, hfit, hus⟩
  obtain ⟨piece, hpiece, hc⟩ := List.mem_flatMap.mp hc
  obtain ⟨cs, rfl⟩ := Piece.exists_gap_of_place hnil.symm piece hpiece
  exact hblanks cs hpiece c hc

-- ---------------------------------------------------------------------------
-- Tokens as they print
-- ---------------------------------------------------------------------------

namespace Piece

/-- A token as it prints. -/
def written (t : Token) : Piece := .token t.kind t.text t.source.toList

variable {kind : TokenKind} {text : String} {cs after after' : List Char}

theorem Fits.source_of_isPlain (h : (token kind text cs).Fits {} after) (hp : kind.isPlain)
    (p : Position) (n : Nat) : (Token.source ⟨kind, text, p, n⟩).toList = cs := by
  rw [(h.plain hp).1]
  cases kind <;> first | rfl | cases hp

/-- A token of a line is cut as it prints, in front of a text like the one after it. -/
theorem Fits.written (h : (token kind text cs).Fits {} after) (hline : ∀ c ∈ cs, isLineEnd c = false)
    (halike : Alike after after') (p : Position) (n : Nat) :
    (written ⟨kind, text, p, n⟩).Fits {} after' := by
  by_cases hp : kind.isPlain
  · rw [Piece.written, h.source_of_isPlain hp]
    exact h.token_of_alike halike
  · cases kind with
    | string q =>
      obtain ⟨body, rfl, hbody⟩ := h.exists_body
      refine Piece.fits_string (fun hmem => ?_) after'
      simpa [isLineEnd] using hline _ (List.mem_cons_of_mem _ (Quote.mem_of_readBody? hbody hmem))
    | endOfInput => exact absurd rfl (Lexeme.kind_ne_endOfInput h.2)
    | identifier | integer | float | punct => exact absurd rfl hp

/-- Texts that are alike stay so behind a token, as it was written and as it prints. -/
theorem Fits.alike_source (h : (token kind text cs).Fits {} after) (halike : Alike after after')
    (p : Position) (n : Nat) :
    Alike (cs ++ after) ((Token.source ⟨kind, text, p, n⟩).toList ++ after') := by
  by_cases hp : kind.isPlain
  · rw [h.source_of_isPlain hp]
    exact halike.append_left cs
  · cases kind with
    | string q =>
      obtain ⟨body, rfl, _⟩ := h.exists_body
      have hquote := endsToken_of_not_isPlainChar (not_isPlainChar_quote q)
      have hsource : (Token.source ⟨.string q, text, p, n⟩).toList = _ := q.toList_wrap text
      rw [hsource]
      exact Alike.ends hquote hquote id _ _
    | endOfInput => exact absurd rfl (Lexeme.kind_ne_endOfInput h.2)
    | identifier | integer | float | punct => exact absurd rfl hp

end Piece

-- ---------------------------------------------------------------------------
-- Conditions
-- ---------------------------------------------------------------------------

namespace Aggregator

/-- The space that prints after a token, if the next one does not touch it. -/
def spaceAfter (t : Token) (ts : List Token) : List Piece :=
  match ts with
  | [] => []
  | u :: _ => if t.touches u then [] else [.gap [' ']]

/-- The pieces that a condition of the tokens prints as. -/
def conditionPieces : List Token → List Piece
  | [] => []
  | t :: ts => .written t :: (spaceAfter t ts ++ conditionPieces ts)

@[simp] theorem place_spaceAfter (p : Position) (t : Token) (ts : List Token) :
    Piece.place p (spaceAfter t ts) = [] := by
  cases ts with
  | nil => rfl
  | cons u ts =>
    rw [spaceAfter]
    split <;> rfl

theorem cut_spaceAfter (t : Token) (ts : List Token) (rest : List Char) :
    Piece.Cut {} (spaceAfter t ts) rest := by
  cases ts with
  | nil => trivial
  | cons u ts =>
    rw [spaceAfter]
    split
    · trivial
    · exact ⟨⟨by decide, skipTrivia_blank _ _⟩, trivial⟩

theorem charsOf_conditionPieces (ts : List Token) :
    Piece.charsOf (conditionPieces ts) = (conditionText ts).toList := by
  induction ts with
  | nil => rfl
  | cons t ts ih =>
    rw [conditionPieces, Piece.charsOf_cons, Piece.charsOf_append, ih]
    cases ts with
    | nil => simp [spaceAfter, conditionText, Piece.written, Piece.chars]
    | cons u ts =>
      simp only [spaceAfter, conditionText, Piece.written, Piece.chars, String.toList_append,
        List.append_assoc]
      split <;> simp [Piece.chars]

/-- What the printed tokens are cut into differs from them in places at most. -/
theorem tracks_conditionPieces {cs us us' : List Token} (hcs : ∀ t ∈ cs, t.isEnd = false)
    (p : Position) : Tracks us us' (cs ++ us) (Piece.place p (conditionPieces cs) ++ us') := by
  induction cs generalizing p with
  | nil => exact .nil
  | cons t cs ih =>
    obtain ⟨_, hcs⟩ := List.forall_mem_cons.mp hcs
    rw [conditionPieces, Piece.written, Piece.place_token, Piece.place_append, place_spaceAfter]
    refine .cons ⟨rfl, rfl⟩ (fun hlt => ?_) (ih hcs _)
    cases cs with
    | nil => exact absurd hlt (Nat.lt_irrefl _)
    | cons u cs =>
      have hu : u.kind ≠ .endOfInput := by simpa [Token.isEnd] using hcs u List.mem_cons_self
      change t.touches u = Token.touches ⟨t.kind, t.text, p, (p.after t.source.toList).offset⟩
        ⟨u.kind, u.text, (p.after t.source.toList).after (Piece.charsOf (spaceAfter t (u :: cs))), _⟩
      cases htouch : t.touches u with
      | true =>
        have hchars : Piece.charsOf (spaceAfter t (u :: cs)) = [] := by simp [spaceAfter, htouch]
        simp [hchars, Token.touches, Token.isEnd, hu]
      | false =>
        have hspace : 0 < byteCount [' '] := byteCount_pos (List.cons_ne_nil ' ' [])
        have hchars : Piece.charsOf (spaceAfter t (u :: cs)) = [' '] := by
          simp [spaceAfter, htouch, Piece.chars]
        simp only [hchars, Token.touches, Position.offset_after]
        rw [eq_comm, Bool.and_eq_false_iff, decide_eq_false_iff_not]
        omega

/-- What follows a token of a condition is like what follows it in the text of the condition,
    if it is so behind the next token. -/
theorem alike_spaceAfter {t : Token} {cs : List Token} {p : Position} {text rest : List Char}
    {us : List Token} (hts : tokensAt {} p text = .ok (cs ++ us)) (ht : t.stop = p.offset)
    (hcs : ∀ t ∈ cs, t.isEnd = false) (hline : ∀ c ∈ text, isLineEnd c = false)
    (halike : (∀ u ∈ cs.head?, u.start.offset = p.offset) → Alike text rest) :
    Alike text (Piece.charsOf (spaceAfter t cs) ++ rest) := by
  cases cs with
  | nil => exact halike (by simp)
  | cons u cs =>
    have hu := hcs u List.mem_cons_self
    cases htouch : t.touches u with
    | true =>
      have hstop : t.stop = u.start.offset := by simpa [Token.touches, hu] using htouch
      simpa [spaceAfter, htouch] using halike (by simp [← hstop, ht])
    | false =>
      obtain ⟨blanks, _, _, _, _, rfl, hblanks, hplace, _⟩ := exists_blanks_of_tokensAt hts hu hline
      have hstop : t.stop ≠ (p.after blanks).offset := by
        rw [Token.touches, hu, hplace] at htouch
        simpa using htouch
      cases blanks with
      | nil => exact absurd ht hstop
      | cons b blanks =>
        have hb : isBlank b := hblanks b List.mem_cons_self
        have hspace : isBlank ' ' := by decide
        have hends := fun {c} (hc : isBlank c) =>
          endsToken_of_not_isPlainChar (not_isPlainChar_of_isBlank hc)
        simpa [spaceAfter, htouch, Piece.chars] using
          Alike.ends (hends hb) (hends hspace) (fun _ => hb) _ rest

/-- The tokens of a condition are cut out of its text as well, in front of the parenthesis
    that closes it. -/
theorem cut_conditionPieces {u : Token} {vs : List Token} (hu : u.isPunct ')') (rest : List Char)
    {cs : List Token} (hcs : ∀ t ∈ cs, t.isEnd = false) {p : Position} {text : List Char}
    (hts : tokensAt {} p text = .ok (cs ++ u :: vs)) (hline : ∀ c ∈ text, isLineEnd c = false) :
    Piece.Cut {} (conditionPieces cs) (')' :: rest) ∧
      ((∀ t ∈ cs.head?, t.start.offset = p.offset) →
        Alike text (Piece.charsOf (conditionPieces cs) ++ ')' :: rest)) := by
  induction cs generalizing p text with
  | nil =>
    refine ⟨trivial, fun _ => ?_⟩
    obtain ⟨blanks, kind, s, taken, after, rfl, hblanks, rfl, hfit, _⟩ :=
      exists_blanks_of_tokensAt hts (Token.isEnd_of_isPunct hu) hline
    have hclose : endsToken ')' := by decide
    cases blanks with
    | nil =>
      obtain ⟨rfl, rfl⟩ : kind = .punct ∧ s = String.singleton ')' := by simpa [Token.isPunct] using hu
      rw [(hfit.plain rfl).1]
      exact Alike.ends hclose hclose id _ _
    | cons b blanks =>
      have hb : isBlank b := hblanks b List.mem_cons_self
      exact Alike.ends (endsToken_of_not_isPlainChar (not_isPlainChar_of_isBlank hb)) hclose
        (fun _ => hb) _ _
  | cons t cs ih =>
    obtain ⟨ht, htail⟩ := List.forall_mem_cons.mp hcs
    obtain ⟨blanks, kind, s, taken, after, rfl, hblanks, rfl, hfit, hus⟩ :=
      exists_blanks_of_tokensAt hts ht hline
    simp only [List.forall_mem_append] at hline
    obtain ⟨_, htaken, hafter⟩ := hline
    obtain ⟨hcut, halike⟩ := ih htail hus hafter
    have halike := alike_spaceAfter (t := ⟨kind, s, p.after blanks, _⟩) hus rfl htail hafter halike
    rw [← List.append_assoc, ← Piece.charsOf_append] at halike
    refine ⟨⟨hfit.written htaken halike _ _, Piece.cut_append.mpr ⟨?_, hcut⟩⟩, fun hstart => ?_⟩
    · exact cut_spaceAfter _ _ _
    · have hoffset : (p.after blanks).offset = p.offset := hstart _ rfl
      obtain rfl : blanks = [] := by
        refine of_not_not fun hne => ?_
        have := byteCount_pos hne
        rw [Position.offset_after] at hoffset
        omega
      rw [conditionPieces, Piece.charsOf_cons, List.append_assoc]
      exact hfit.alike_source halike _ _

theorem like_conditionPieces (cs : List Token) (p : Position) :
    List.Forall₂ Token.Like cs (Piece.place p (conditionPieces cs)) := by
  induction cs generalizing p with
  | nil => exact .nil
  | cons t cs ih =>
    rw [conditionPieces, Piece.written, Piece.place_token, Piece.place_append, place_spaceAfter]
    exact .cons ⟨rfl, rfl⟩ (ih _)

theorem conditionText_place {cs : List Token} (hcs : ∀ t ∈ cs, t.isEnd = false) (p : Position) :
    conditionText (Piece.place p (conditionPieces cs)) = conditionText cs := by
  have htracks : Tracks [] [] (cs ++ []) (Piece.place p (conditionPieces cs) ++ []) :=
    tracks_conditionPieces hcs p
  exact (conditionText_of_tracks htracks (like_conditionPieces cs p).length_eq (Nat.le_refl _)).symm

/-- Tokens like those of a condition are a condition in front of a parenthesis. -/
theorem ConditionReads.of_like {depth : Nat} {ts cs cs' us us' : List Token} {u : Token}
    (h : ConditionReads depth ts cs us) (hlike : List.Forall₂ Token.Like cs cs')
    (hu : u.isPunct ')') : ConditionReads depth (cs' ++ u :: us') cs' us' := by
  induction h generalizing cs' with
  | close _ =>
    cases hlike
    exact .close hu
  | cons hinside hgoes _ ih =>
    cases hlike with
    | cons ht hmore =>
      exact .cons (endsCondition_of_like ht ▸ hinside) (ht.isPunct _ ▸ hgoes)
        (depthAfter_of_like ht _ ▸ ih hmore)

theorem ConditionReads.isEnd_of_mem {depth : Nat} {ts cs us : List Token}
    (h : ConditionReads depth ts cs us) : ∀ t ∈ cs, t.isEnd = false := by
  induction h with
  | close _ => simp
  | cons hinside _ _ ih =>
    simp only [endsCondition, Bool.or_eq_false_iff] at hinside
    exact List.forall_mem_cons.mpr ⟨hinside.1.1, ih⟩

end Aggregator

/-- A token of a line prints as a line. -/
theorem Lexed.isLine_source {t : Token} {us : List Token} (h : Lexed (t :: us))
    (ht : t.isEnd = false) : IsLine t.source := by
  obtain ⟨_, kind, text, taken, rest, rfl, hfit, _, hline⟩ := h.exists_text ht
  by_cases hp : kind.isPlain
  · rw [IsLine, hfit.source_of_isPlain hp, List.all_eq_true]
    intro c hc
    simp [hline c (List.mem_append_left _ hc)]
  · cases kind with
    | string q => exact Quote.isLine_wrap (h.isLine_of_string rfl)
    | endOfInput => cases ht
    | identifier | integer | float | punct => exact absurd rfl hp

/-- The tokens at the end of a line are those of its end. -/
theorem Lexed.exists_tokensAt {t : Token} {us : List Token} (h : Lexed (t :: us))
    (ht : t.isEnd = false) : ∃ p cs, (∀ c ∈ cs, isLineEnd c = false) ∧
      tokensAt {} p cs = .ok (t :: us) := by
  obtain ⟨p, kind, text, taken, rest, rfl, hfit, hus, hline⟩ := h.exists_text ht
  exact ⟨p, _, hline, tokensAt_token hfit hus⟩

namespace Aggregator

theorem isLine_conditionText {cs us : List Token} (h : Lexed (cs ++ us))
    (hcs : ∀ t ∈ cs, t.isEnd = false) : IsLine (conditionText cs) := by
  have hblank : IsLine " " := by decide
  induction cs with
  | nil => rfl
  | cons t cs ih =>
    obtain ⟨ht, hcs⟩ := List.forall_mem_cons.mp hcs
    have hsource := Lexed.isLine_source h ht
    have hmore := ih h.tail hcs
    cases cs with
    | nil => exact hsource
    | cons u cs =>
      rw [conditionText]
      split <;> simp [hsource, hmore, hblank]

/-- A condition that is read from a text is read back where it is printed. -/
theorem ConditionReads.reads_text {ts cs us : List Token} (hts : Lexed ts)
    (hfilled : (peek ts).isPunct ')' = false) (h : ConditionReads 0 ts cs us) {q : Position}
    {rest : List Char} {vs : List Token}
    (hvs : tokensAt {} ((q.after (conditionText cs).toList).after [')']) rest = .ok vs) :
    ∃ row, tokensAt {} q ((conditionText cs).toList ++ ')' :: rest) = .ok row ∧
      conditionTail.Reads row (conditionText cs) vs := by
  obtain ⟨u, rfl, hu⟩ := h.eq_append
  have hcs := h.isEnd_of_mem
  cases cs with
  | nil => simp [hu] at hfilled
  | cons t cs =>
    obtain ⟨p, text, hline, htokens⟩ := Lexed.exists_tokensAt hts (hcs t List.mem_cons_self)
    obtain ⟨hcut, _⟩ := cut_conditionPieces hu rest hcs htokens hline
    have hrow := tokensAt_append hcut q
    rw [charsOf_conditionPieces, tokensAt_punct rfl hvs] at hrow
    exact ⟨_, hrow, reads_conditionTail.mpr ⟨hfilled, _,
      h.of_like (like_conditionPieces _ q) (isPunct_singleton _ _ _),
      (conditionText_place hcs q).symm⟩⟩

/-- A condition that is read from a text is read back from its own. -/
theorem ConditionReads.readsCondition {ts cs us : List Token} (hts : Lexed ts)
    (hfilled : (peek ts).isPunct ')' = false) (h : ConditionReads 0 ts cs us) :
    ReadsCondition (conditionText cs) := by
  have hline : IsLine (conditionText cs) := by
    obtain ⟨u, rfl, _⟩ := h.eq_append
    exact isLine_conditionText hts h.isEnd_of_mem
  have hmarks : IsLine "x(" ∧ IsLine "):" := by decide
  have hwhole : IsLine ("x(" ++ conditionText cs ++ "):") := by simp [hmarks, hline]
  have hx : IsName "x" := IsName.of_read rfl rfl
  obtain ⟨row, hrow, hread⟩ := h.reads_text hts hfilled
    (tokensAt_punct (c := ':') rfl (tokensAt_nil {} _))
  obtain ⟨x, hxs, hname, htext⟩ := hx.tokensAt (p := .start) rfl rfl
    (tokensAt_punct (c := '(') rfl hrow)
  have htokens : tokensOf {} ("x(" ++ conditionText cs ++ "):") = .ok (x :: _ :: row) :=
    (IsLine.tokensOf_eq_ok hwhole).mpr (by simpa [String.append_assoc] using hxs)
  exact ⟨hline, _, _, htokens, reads_rule.mpr (.of_conditionTail hname htext
    (isPunct_singleton _ _ _) hread (isPunct_singleton _ _ _))⟩

end Aggregator

end MetricLang
