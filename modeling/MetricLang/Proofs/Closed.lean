-- SUMMARY: Texts that end with a mark, which are read alike wherever they stand.
import MetricLang.Proofs.Alike
import MetricLang.Proofs.Sources
import MetricLang.Proofs.Transport

/-!
# Texts that end with a mark

A text that prints for all the tokens it is cut into, and that ends with a mark such
as a brace or a parenthesis, is cut in the same way whatever follows it. No comment
can hide the mark: the tokens have as many marks as the text (`Shows.marks_eq`), so
the last one is among them. What is read of such a text alone is read of it
everywhere (`Local.reads_closed`).
-/

namespace MetricLang

-- ---------------------------------------------------------------------------
-- Counting marks
-- ---------------------------------------------------------------------------

@[simp] theorem marks_cons (c : Char) (cs : List Char) :
    marks (c :: cs) = marks cs + if isMark c then 1 else 0 := by
  simp [marks, List.countP_cons]

theorem marks_pos {cs : List Char} {c : Char} (h : c ∈ cs) (hc : isMark c) : 0 < marks cs :=
  List.countP_pos_iff.mpr ⟨c, h, hc⟩

theorem isMark_blank : isMark ' ' = false := by decide

theorem isMark_backslash : isMark '\\' = false := by decide

theorem Quote.not_isMark (q : Quote) : isMark q.char = false := by
  cases q <;> decide

theorem marks_unspaced (o : Option Quote) (cs : List Char) : marks (unspaced o cs) = marks cs := by
  fun_induction unspaced o cs <;> simp_all [isMark_blank]

theorem Unspaces.marks_eq {s : String} {cs : List Char} (h : Unspaces s cs) :
    marks s.toList = marks cs := by
  have hs := h []
  rw [List.append_nil, unspaced, List.append_nil] at hs
  rw [← hs, marks_unspaced]

namespace Quote

theorem marks_escape (q : Quote) (cs : List Char) : marks (q.escape cs) = marks cs := by
  fun_induction escape q cs <;> simp_all [isMark_backslash]

theorem marks_readBody? {q : Quote} {cs value rest : List Char}
    (h : q.readBody? cs = some (value, rest)) : marks cs = marks value + marks rest := by
  fun_induction readBody? q cs generalizing value rest with
  | case1 => cases h
  | case2 c cs ih =>
    obtain ⟨⟨v, r⟩, hr, he⟩ := Option.map_eq_some_iff.mp h
    cases he
    have := ih hr
    split <;> simp only [marks_cons, isMark_backslash, Bool.false_eq_true, if_false] <;> omega
  | case3 c cs =>
    cases h
    simp [q.not_isMark]
  | case4 => cases h
  | case5 c cs _ _ _ ih =>
    obtain ⟨⟨v, r⟩, hr, he⟩ := Option.map_eq_some_iff.mp h
    cases he
    have := ih hr
    simp only [marks_cons]
    omega

end Quote

namespace Piece

/-- A token has the marks that it is written with. -/
theorem Fits.marks_source {kind : TokenKind} {text : String} {cs after : List Char}
    (h : (token kind text cs).Fits {} after) (p : Position) (n : Nat) :
    marks (Token.source ⟨kind, text, p, n⟩).toList = marks cs := by
  cases kind with
  | string q =>
    obtain ⟨body, rfl, hbody⟩ := h.exists_body
    have hmarks := Quote.marks_readBody? hbody
    simp [Token.source, q.toList_wrap, q.not_isMark, q.marks_escape, hmarks]
  | endOfInput => exact absurd rfl (Lexeme.kind_ne_endOfInput h.2)
  | identifier | integer | float | punct => rw [(h.plain rfl).1]; rfl

/-- The tokens of pieces have no more marks than the pieces: those in gaps do not count. -/
theorem Cut.marks_sources_le {ps : List Piece} {rest : List Char} (h : Cut {} ps rest)
    (p : Position) : marks (sources (place p ps)) ≤ marks (charsOf ps) := by
  induction ps generalizing p with
  | nil => exact Nat.le_refl _
  | cons piece ps ih =>
    obtain ⟨hfit, hcut⟩ := h
    rw [charsOf_cons, marks_append]
    cases piece with
    | gap cs => exact Nat.le_trans (ih hcut _) (Nat.le_add_left _ _)
    | token kind text cs =>
      rw [place_token, sources_cons, marks_append, hfit.marks_source]
      exact Nat.add_le_add_left (ih hcut _) _

/-- Pieces in a row have characters. -/
theorem Cut.eq_nil_of_charsOf {ps : List Piece} (h : Cut {} ps []) (hchars : charsOf ps = []) :
    ps = [] := by
  cases ps with
  | nil => rfl
  | cons piece ps =>
    obtain ⟨hfit, _⟩ := h
    rw [charsOf_cons, List.append_eq_nil_iff] at hchars
    cases piece with
    | gap cs => exact absurd hchars.1 hfit.1
    | token kind text cs => exact absurd (by simpa [chars] using hchars) hfit.token_ne_nil

end Piece

-- ---------------------------------------------------------------------------
-- Closed texts
-- ---------------------------------------------------------------------------

/-- A text has the marks of the tokens that it prints for. -/
theorem Shows.exists_marks_eq {s : String} {ts us : List Token} (h : Shows s ts us) (hts : Lexed ts) :
    ∃ pre, ts = pre ++ us ∧ (∀ t ∈ pre, t.isEnd = false) ∧
      marks s.toList = marks (sources pre) := by
  obtain ⟨pre, heq, hpre, hs⟩ := h
  obtain ⟨cs, hcs, hrespells⟩ := hs hts
  exact ⟨pre, heq, hpre, hcs.marks_eq.trans hrespells.marks⟩

/-- A token that ends with a mark is cut in front of any text. -/
theorem Piece.Fits.of_mark {kind : TokenKind} {text : String} {cs : List Char} {c : Char}
    (h : (token kind text (cs ++ [c])).Fits {} []) (hc : isMark c) (rest : List Char) :
    (token kind text (cs ++ [c])).Fits {} rest := by
  have hread := h.2
  rw [List.append_nil] at hread
  obtain ⟨q, hkind, _⟩ | ⟨hkind, hnumber⟩ | ⟨hkind, hidentifier⟩ | ⟨hkind, d, _, hcs, htext⟩ :=
    Lexeme.kind_cases hread
  · dsimp only at hkind
    subst hkind
    exact h.of_string rest
  · have hchars := isNumberChar_of_mem_readNumber? hnumber c
    obtain ⟨htext, _⟩ := h.plain (by obtain rfl | rfl := hkind <;> rfl)
    simp [not_isMark_of_isNumberChar (hchars (by simp [← htext]))] at hc
  · have hchars := isIdentifierPart_of_readIdentifier? hidentifier c
    obtain ⟨htext, _⟩ := h.plain (by obtain rfl := hkind; rfl)
    simp [isMark, endsToken, hchars (by simp [← htext])] at hc
  · have hcs : cs ++ [c] = [] ++ [d] := hcs
    obtain ⟨rfl, hcd⟩ := List.append_inj' hcs rfl
    obtain rfl := (List.cons.inj hcd).1
    obtain rfl := hkind
    have htext : text = String.singleton c := String.toList_inj.mp (by simpa using htext)
    exact htext ▸ Piece.fits_punct (Bool.and_eq_true_iff.mp hc).1 rest

/-- Pieces of a line of which the last ends with a mark are cut in front of any text. -/
theorem Piece.Cut.of_mark {ps : List Piece} {kind : TokenKind} {text : String} {cs : List Char}
    {c : Char} (h : Cut {} (ps ++ [.token kind text (cs ++ [c])]) []) (hc : isMark c)
    (hline : ∀ d ∈ charsOf ps ++ (cs ++ [c]), isLineEnd d = false) (rest : List Char) :
    Cut {} (ps ++ [.token kind text (cs ++ [c])]) rest := by
  obtain ⟨hps, hfit, _⟩ := cut_append.mp h
  simp only [charsOf_cons, charsOf_nil, chars, List.append_nil] at hps
  refine cut_append.mpr ⟨?_, hfit.of_mark hc rest, trivial⟩
  simp only [charsOf_cons, charsOf_nil, chars, List.append_nil, List.append_assoc,
    List.singleton_append]
  have hends := (Bool.and_eq_true_iff.mp hc).2
  have halike : Alike (cs ++ [c]) (cs ++ c :: rest) := (Alike.ends hends hends id [] rest).append_left cs
  have hskip : skipTrivia true (cs ++ [c]) ≠ [] := by
    have htrivia := hfit.1
    rw [charsOf_nil, List.nil_append, List.append_nil] at htrivia
    rw [skipTrivia_of_none htrivia]
    simp
  exact hps.of_alike (hps.isBlank_of_mem hline hskip) halike

/-- A row that has all its marks up to a token, and ends with a mark, ends with the token. -/
theorem Piece.Cut.last_of_marks {as bs : List Piece} {kind : TokenKind} {text : String}
    {p q : Position} {n : Nat} {ds cs : List Char} {c : Char}
    (h : Cut {} (as ++ .token kind text ds :: bs) [])
    (hchars : charsOf (as ++ .token kind text ds :: bs) = cs ++ [c]) (hc : isMark c)
    (hmarks : marks (cs ++ [c]) = marks (sources (place p as ++ [⟨kind, text, q, n⟩]))) :
    bs = [] ∧ ∃ init, ds = init ++ [c] := by
  obtain ⟨has, hfit, hbs⟩ := cut_append.mp h
  have hle := has.marks_sources_le p
  rw [charsOf_append, charsOf_cons, chars] at hchars
  simp only [← hchars, marks_append, sources_append, sources_cons, sources_nil, hfit.marks_source,
    List.append_nil] at hmarks
  have hnil : charsOf bs = [] := by
    obtain hnil | ⟨init, d, hd⟩ := List.eq_nil_or_concat' (charsOf bs)
    · exact hnil
    · rw [hd, ← List.append_assoc, ← List.append_assoc] at hchars
      obtain rfl := (List.cons.inj (List.append_inj' hchars rfl).2).1
      have hpos : 0 < marks (charsOf bs) := marks_pos (by simp [hd]) hc
      omega
  obtain rfl := hbs.eq_nil_of_charsOf hnil
  refine ⟨rfl, ?_⟩
  obtain rfl | ⟨init, d, rfl⟩ := List.eq_nil_or_concat' ds
  · exact absurd rfl hfit.token_ne_nil
  · rw [charsOf_nil, List.append_nil, ← List.append_assoc] at hchars
    obtain rfl := (List.cons.inj (List.append_inj' hchars rfl).2).1
    exact ⟨init, rfl⟩

/-- Does the text end with a mark? -/
def EndsInMark (s : String) : Bool := s.toList.getLast?.any isMark

theorem EndsInMark.append_left {s : String} (h : EndsInMark s) (t : String) :
    EndsInMark (t ++ s) := by
  cases hs : s.toList.getLast? with
  | none => simp [EndsInMark, hs] at h
  | some c => simpa [EndsInMark, hs] using h

theorem EndsInMark.exists_append {s : String} (h : EndsInMark s) :
    ∃ cs c, s.toList = cs ++ [c] ∧ isMark c := by
  obtain ⟨c, hlast, hc⟩ := (Option.any_eq_true _ _).mp h
  obtain ⟨cs, hs⟩ := List.getLast?_eq_some_iff.mp hlast
  exact ⟨cs, c, hs, hc⟩

/-- A text that ends with a mark and prints for its tokens up to `us` is cut into them
    whatever follows it, and nothing is left of it. -/
theorem Shows.exists_cut {s : String} {p : Position} {ts us : List Token} (h : Shows s ts us)
    (hts : tokensAt {} p s.toList = .ok ts) (hline : IsLine s) (hmark : EndsInMark s) :
    ∃ ps, Piece.charsOf ps = s.toList ∧ ts = Piece.place p ps ++ us ∧
      us = [.endAt (p.after s.toList)] ∧ ∀ rest, Piece.Cut {} ps rest := by
  have hline : ∀ c ∈ s.toList, isLineEnd c = false := by simpa [IsLine] using hline
  obtain ⟨cs, c, hs, hc⟩ := EndsInMark.exists_append hmark
  obtain ⟨pre, heq, hpre, hmarks⟩ := h.exists_marks_eq ⟨p, s.toList, ts, hline, hts, List.suffix_refl ts⟩
  obtain ⟨ps, hchars, hcut, rfl⟩ := exists_cut_of_tokensAt hts
  obtain ⟨vs, rfl, hplace⟩ := exists_append_of_isEnd heq hpre rfl
  rw [← hchars] at hline
  obtain ⟨init, t, rfl⟩ : ∃ init t, pre = init ++ [t] := by
    refine (List.eq_nil_or_concat' pre).resolve_left ?_
    rintro rfl
    have hpos : 0 < marks s.toList := marks_pos (by simp [hs]) hc
    simp [hmarks] at hpos
  rw [List.append_assoc, List.singleton_append] at hplace
  obtain ⟨as, kind, text, ds, bs, rfl, rfl, rfl, rfl⟩ := Piece.exists_of_place hplace
  obtain ⟨rfl, ds, rfl⟩ := hcut.last_of_marks (hchars.trans hs) hc (hs ▸ hmarks)
  exact ⟨_, hchars, by simp [Piece.place_append], by simp,
    hcut.of_mark hc (by simpa [Piece.chars] using hline)⟩

namespace Piece

/-- Where the first token of a row begins is told by the gaps before it. -/
theorem place_cases (ps : List Piece) : (∀ p, place p ps = []) ∨ ∃ gs kind text cs bs, ∀ p : Position,
    place p ps = ⟨kind, text, p.after gs, ((p.after gs).after cs).offset⟩ ::
      place ((p.after gs).after cs) bs := by
  induction ps with
  | nil => exact .inl fun _ => rfl
  | cons piece ps ih =>
    cases piece with
    | gap gs =>
      obtain hnil | ⟨gs', kind, text, cs, bs, hcons⟩ := ih
      · exact .inl fun p => hnil _
      · refine .inr ⟨gs ++ gs', kind, text, cs, bs, fun p => ?_⟩
        rw [place_gap, hcons, Position.after_append]
    | token kind text cs => exact .inr ⟨[], kind, text, cs, ps, fun p => rfl⟩

/-- A row of pieces is cut into the same tokens wherever it begins. -/
theorem tracks_place (us us' : List Token) (ps : List Piece) (p q : Position) :
    Tracks us us' (place p ps ++ us) (place q ps ++ us') := by
  induction ps generalizing p q with
  | nil => exact .nil
  | cons piece ps ih =>
    cases piece with
    | gap gs => exact ih _ _
    | token kind text cs =>
      refine .cons ⟨rfl, rfl⟩ (fun hlt => ?_) (ih _ _)
      obtain hnil | ⟨gs, kind', text', ds, bs, hcons⟩ := place_cases ps
      · simp [hnil] at hlt
      · simp [hcons, Token.touches, Token.isEnd, Position.offset_after]

end Piece

/-- What is read of all tokens of a text that ends with a mark is read of it in front of
    any other text as well, if it may end before that. -/
theorem Local.reads_closed {ends : Token → Bool} {reads : List Token → α → List Token → Prop}
    (h : Local ends reads) {s : String} {x : α} {ts us : List Token} {p : Position}
    (hts : tokensAt {} p s.toList = .ok ts) (hread : reads ts x us) (hshows : Shows s ts us)
    (hline : IsLine s) (hmark : EndsInMark s) {q : Position} {rest : List Char} {vs : List Token}
    (hends : ends (peek vs)) (hvs : tokensAt {} (q.after s.toList) rest = .ok vs) :
    ∃ ts', tokensAt {} q (s.toList ++ rest) = .ok ts' ∧ reads ts' x vs := by
  obtain ⟨ps, hchars, rfl, hus, hcut⟩ := hshows.exists_cut hts hline hmark
  obtain ⟨vs', htracks, hread⟩ := h hread (Piece.tracks_place us vs ps p q) (Nat.le_refl _) fun _ => hends
  obtain ⟨-, rfl⟩ := htracks.eq_of_length (Nat.le_refl _)
  refine ⟨_, ?_, hread⟩
  rw [← hchars, tokensAt_append (hcut rest), hchars, hvs]
  rfl

end MetricLang
