-- SUMMARY: Cutting a text into tokens by plain recursion, so that given texts can be cut by computing.
import MetricLang.Proofs.WholeTexts

/-!
# Cutting given texts

The lexer recurs on what is left of its text, which the kernel cannot unfold.
`cutWithin` takes the same steps, at most a given number of them, and finds the same
tokens (`tokensAt_of_cutWithin`). What the lexer makes of a given text is proved by
computing it.
-/

namespace MetricLang

/-- The tokens of a text that begins at `p`, if no more than the given number of steps
    finds them all. -/
def cutWithin : Nat → Position → List Char → Option (List Token)
  | 0, _, _ => none
  | _ + 1, p, [] => some [.endAt p]
  | n + 1, p, c :: cs =>
    match readTrivia? true (c :: cs) with
    | some (taken, rest) => cutWithin n (p.after taken) rest
    | none =>
      (Lexeme.read? {} (c :: cs)).bind fun l =>
        let after := p.after ((c :: cs).take (cs.length + 1 - l.rest.length))
        (cutWithin n after l.rest).map (⟨l.kind, String.ofList l.text, p, after.offset⟩ :: ·)

theorem tokensAt_gap {taken rest : List Char} {cs : List Char} {p : Position}
    (h : readTrivia? true cs = some (taken, rest)) :
    tokensAt {} p cs = tokensAt {} (p.after taken) rest := by
  obtain ⟨rfl, hne⟩ := append_of_readTrivia? h
  have hcut : Piece.Cut {} [.gap taken] rest := ⟨⟨hne, skipTrivia_of_some h⟩, trivial⟩
  have hts := tokensAt_append hcut p
  simp only [Piece.charsOf_cons, Piece.charsOf_nil, Piece.chars, List.append_nil,
    Piece.place_gap, Piece.place_nil, List.nil_append] at hts
  rw [hts]
  cases tokensAt {} (p.after taken) rest <;> rfl

theorem tokensAt_of_cutWithin {n : Nat} {p : Position} {cs : List Char} {ts : List Token}
    (h : cutWithin n p cs = some ts) : tokensAt {} p cs = .ok ts := by
  induction n generalizing p cs ts with
  | zero => cases h
  | succ n ih =>
    cases cs with
    | nil =>
      cases h
      exact tokensAt_nil {} p
    | cons c cs =>
      unfold cutWithin at h
      split at h
      · next taken rest htrivia =>
        rw [tokensAt_gap htrivia]
        exact ih h
      · next htrivia =>
        obtain ⟨l, hl, h⟩ := Option.bind_eq_some_iff.mp h
        obtain ⟨us, hus, rfl⟩ := Option.map_eq_some_iff.mp h
        obtain ⟨taken, htaken⟩ := Lexeme.suffix_of_read? hl
        have hlength : cs.length + 1 - l.rest.length = taken.length := by
          have := congrArg List.length htaken
          simp only [List.length_append, List.length_cons] at this
          omega
        have htake : (c :: cs).take (cs.length + 1 - l.rest.length) = taken := by
          rw [hlength, ← htaken, List.take_left]
        rw [htake] at hus ⊢
        rw [← htaken] at hl htrivia ⊢
        refine tokensAt_token ⟨htrivia, ?_⟩ (ih hus)
        rw [hl, String.toList_ofList]

/-- The tokens of a given text, found by computing. -/
theorem tokenize_of_cutWithin {n : Nat} {s : String} {ts : List Token}
    (h : cutWithin n .start s.toList = some ts) : tokenize {} s = .ok ts := by
  rw [tokenize_eq_tokensAt]
  exact tokensAt_of_cutWithin h

/-- The tokens of a given line, found by computing. -/
theorem tokensOf_of_cutWithin {n : Nat} {s : String} {ts : List Token} (hline : IsLine s)
    (h : cutWithin n .start s.toList = some ts) : tokensOf {} s = .ok ts :=
  (IsLine.tokensOf_eq_ok hline).mpr (tokensAt_of_cutWithin h)

end MetricLang
