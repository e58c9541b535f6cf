-- SUMMARY: Escaping and reading quoted strings undo each other, where no bare line feed is in the way.
import Mathlib.Data.List.Chain
import MetricLang.Proofs.Piece

/-!
# Escaped strings

Between quotes a line feed is read only behind a backslash, which then stays. So the
values that strings have are those in which a backslash guards every line feed
(`FeedsGuarded`), and just these can be written: escaping one of them and reading it
again gives it back, whatever follows the closing quote (`string?_wrap_iff`).
-/

namespace MetricLang

-- ---------------------------------------------------------------------------
-- Line feeds
-- ---------------------------------------------------------------------------

/-- Does a backslash stand right in front of every line feed? -/
def FeedsGuarded (cs : List Char) : Prop :=
  cs.head? ≠ some '\n' ∧ cs.IsChain fun c d => d = '\n' → c = '\\'

instance (cs : List Char) : Decidable (FeedsGuarded cs) := inferInstanceAs (Decidable (_ ∧ _))

namespace FeedsGuarded

variable {c d : Char} {cs : List Char}

theorem nil : FeedsGuarded [] := by decide

theorem cons (hc : c ≠ '\n') (h : FeedsGuarded cs) : FeedsGuarded (c :: cs) := by
  refine ⟨by simpa using hc, List.isChain_cons.mpr ⟨?_, h.2⟩⟩
  rintro d hd rfl
  exact absurd hd h.1

/-- A backslash guards whatever stands behind it. -/
theorem backslash (c : Char) (h : FeedsGuarded cs) : FeedsGuarded ('\\' :: c :: cs) := by
  by_cases hc : c = '\n'
  · subst hc
    refine ⟨by simp, List.isChain_cons_cons.mpr ⟨fun _ => rfl, List.isChain_cons.mpr ⟨?_, h.2⟩⟩⟩
    rintro d hd rfl
    exact absurd hd h.1
  · exact cons (by decide) (cons hc h)

theorem of_not_mem (h : '\n' ∉ cs) : FeedsGuarded cs := by
  induction cs with
  | nil => exact nil
  | cons c cs ih =>
    refine cons ?_ (ih (List.not_mem_of_not_mem_cons h))
    rintro rfl
    simp at h

theorem head_ne (h : FeedsGuarded (c :: cs)) : c ≠ '\n' := by
  simpa using h.1

/-- No other character than a backslash guards what stands behind it. -/
theorem tail (h : FeedsGuarded (c :: cs)) (hc : c ≠ '\\') : FeedsGuarded cs := by
  obtain ⟨hguard, hchain⟩ := List.isChain_cons.mp h.2
  exact ⟨fun hhead => hc (hguard '\n' hhead rfl), hchain⟩

theorem tail_of_ne (h : FeedsGuarded (c :: d :: cs)) (hd : d ≠ '\n') : FeedsGuarded (d :: cs) :=
  ⟨by simpa using hd, (List.isChain_cons_cons.mp h.2).2⟩

/-- What stands behind a guarded character has to be guarded itself. -/
theorem tail_tail (h : FeedsGuarded (c :: d :: cs)) (hd : d ≠ '\\') : FeedsGuarded cs := by
  obtain ⟨hguard, hchain⟩ := List.isChain_cons.mp (List.isChain_cons_cons.mp h.2).2
  exact ⟨fun hhead => hd (hguard '\n' hhead rfl), hchain⟩

end FeedsGuarded

-- ---------------------------------------------------------------------------
-- Reading and escaping
-- ---------------------------------------------------------------------------

namespace Quote

theorem char_ne_backslash (q : Quote) : q.char ≠ '\\' := by
  cases q <;> decide

theorem char_ne_feed (q : Quote) : q.char ≠ '\n' := by
  cases q <;> decide

theorem readBody?_cons {q : Quote} {c : Char} {cs : List Char} (hslash : c ≠ '\\')
    (hquote : c ≠ q.char) (hfeed : c ≠ '\n') :
    q.readBody? (c :: cs) = (q.readBody? cs).map fun (value, rest) => (c :: value, rest) := by
  rw [readBody?.eq_def]
  simp [hslash, hquote, hfeed]

theorem readBody?_char (q : Quote) (rest : List Char) :
    q.readBody? (q.char :: rest) = some ([], rest) := by
  rw [readBody?.eq_def]
  simp [q.char_ne_backslash]

theorem escape_cons {q : Quote} {c : Char} {cs : List Char} (hslash : c ≠ '\\')
    (hquote : c ≠ q.char) : q.escape (c :: cs) = c :: q.escape cs := by
  rw [escape.eq_def]
  simp [hslash, hquote]

/-- Every line feed of a string is read behind a backslash that stays with it. -/
theorem feedsGuarded_of_readBody? {q : Quote} {cs value rest : List Char}
    (h : q.readBody? cs = some (value, rest)) : FeedsGuarded value := by
  fun_induction readBody? q cs generalizing value rest with
  | case1 => cases h
  | case2 c cs ih =>
    obtain ⟨⟨v, r⟩, hr, he⟩ := Option.map_eq_some_iff.mp h
    cases he
    split
    · next hescapes =>
      refine .cons ?_ (ih hr)
      rintro rfl
      exact hescapes.elim (fun hquote => q.char_ne_feed hquote.symm) (by decide)
    · exact .backslash c (ih hr)
  | case3 c cs =>
    cases h
    exact .nil
  | case4 => cases h
  | case5 c cs _ _ hplain ih =>
    obtain ⟨⟨v, r⟩, hr, he⟩ := Option.map_eq_some_iff.mp h
    cases he
    exact .cons (not_or.mp hplain).2 (ih hr)

/-- Reading undoes escaping, whatever follows the closing quote. -/
theorem readBody?_escape (q : Quote) {cs : List Char} (rest : List Char)
    (h : FeedsGuarded cs) : q.readBody? (q.escape cs ++ q.char :: rest) = some (cs, rest) := by
  induction hn : cs.length using Nat.strongRecOn generalizing cs with
  | ind n ih =>
    subst hn
    cases cs with
    | nil => exact q.readBody?_char rest
    | cons c cs =>
      by_cases hquote : c = q.char
      · have ih := ih cs.length (Nat.lt_succ_self _) (h.tail (hquote ▸ q.char_ne_backslash)) rfl
        simp [escape, hquote, readBody?, ih]
      · by_cases hslash : c = '\\'
        · subst hslash
          cases cs with
          | nil => simp [escape, hquote, readBody?, q.readBody?_char rest]
          | cons d cs =>
            -- A backslash that acts on the next character is doubled, any other takes the
            -- next character along.
            by_cases hacts : d = q.char ∨ d = '\\'
            · have hfeed : d ≠ '\n' := by
                rintro rfl
                exact hacts.elim (fun hquote => q.char_ne_feed hquote.symm) (by decide)
              have ih := ih _ (Nat.lt_succ_self _) (h.tail_of_ne hfeed) rfl
              rw [escape]
              simp only [hquote, hacts, if_true, if_false, List.cons_append, readBody?, ih]
              simp
            · obtain ⟨hquote', hslash'⟩ := not_or.mp hacts
              have hlt : cs.length < ('\\' :: d :: cs).length := by simp only [List.length_cons]; omega
              have ih := ih cs.length hlt (h.tail_tail hslash') rfl
              simp [escape, hquote, hquote', hslash', readBody?, ih]
        · have ih := ih cs.length (Nat.lt_succ_self _) (h.tail hslash) rfl
          rw [escape_cons hslash hquote, List.cons_append,
            readBody?_cons hslash hquote h.head_ne, ih]
          rfl

/-- What goes through a quoted text one character at a time, a backslash along with the
    character after it, goes through an escaped text up to the quote that closes it. -/
theorem through_escape {f g : List Char → List Char} (q : Quote)
    (hescaped : ∀ c rest, f ('\\' :: c :: rest) = '\\' :: c :: f rest)
    (hplain : ∀ c rest, c ≠ '\\' → c ≠ q.char → f (c :: rest) = c :: f rest)
    (hclose : ∀ rest, f (q.char :: rest) = q.char :: g rest) (cs rest : List Char) :
    f (q.escape cs ++ q.char :: rest) = q.escape cs ++ q.char :: g rest := by
  fun_induction escape q cs with
  | case1 => exact hclose rest
  | case2 cs ih => simp [hescaped, ih]
  | case3 _ => simp [hescaped, hclose]
  | case4 next tail hnext _ ih => simp [hescaped, ih]
  | case5 next tail hnext _ ih =>
    -- The backslash takes along the character that it stands in front of.
    obtain ⟨hquote, hslash⟩ := not_or.mp hnext
    simp only [escape, hquote, hslash, if_false, List.cons_append, hplain next _ hslash hquote,
      List.cons.injEq, true_and] at ih
    simp [escape, hquote, hslash, hescaped, ih]
  | case6 c cs hquote hslash ih => simp [hplain c _ hslash hquote, ih]

theorem toList_wrap (q : Quote) (s : String) :
    (q.wrap s).toList = q.char :: (q.escape s.toList ++ [q.char]) := by
  simp [wrap]

end Quote

-- ---------------------------------------------------------------------------
-- Whole strings
-- ---------------------------------------------------------------------------

namespace Lexeme

theorem string?_of_read? {q : Quote} {cs value rest : List Char}
    (h : q.read? cs = some (value, rest)) : string? cs = some ⟨.string q, value, rest⟩ := by
  cases q with
  | double => simp [string?, h]
  | single =>
    have hdouble : Quote.double.read? cs = none := by
      cases cs with
      | nil => rfl
      | cons c cs =>
        simp only [Quote.read?] at h ⊢
        split at h
        · next hc =>
          rw [if_neg]
          rw [hc]
          decide
        · cases h
    simp [string?, h, hdouble]

theorem read?_of_string? {q : Quote} {cs value rest : List Char}
    (h : string? cs = some ⟨.string q, value, rest⟩) : q.read? cs = some (value, rest) := by
  obtain ⟨q', hkind, hread⟩ := string?_eq_some h
  cases hkind
  exact hread

theorem feedsGuarded_of_string? {q : Quote} {cs value rest : List Char}
    (h : string? cs = some ⟨.string q, value, rest⟩) : FeedsGuarded value := by
  have hread := read?_of_string? h
  cases cs with
  | nil => cases hread
  | cons c cs =>
    simp only [Quote.read?] at hread
    split at hread
    · exact Quote.feedsGuarded_of_readBody? hread
    · cases hread

theorem string?_of_feedsGuarded (q : Quote) {value : List Char} (rest : List Char)
    (h : FeedsGuarded value) : string? (q.char :: (q.escape value ++ q.char :: rest)) =
      some ⟨.string q, value, rest⟩ := by
  refine string?_of_read? ?_
  rw [Quote.read?, if_pos rfl]
  exact q.readBody?_escape rest h

end Lexeme

/-- A value that is escaped and put in quotes is read back, and all that follows is left,
    if and only if a backslash guards each of its line feeds. The value of every string
    that is read is of this kind, so escaping it gives a string with the same value. -/
theorem string?_escape_iff :
    (∀ (q : Quote) (value rest : List Char),
      Lexeme.string? (q.char :: (q.escape value ++ q.char :: rest)) =
        some ⟨.string q, value, rest⟩ ↔ FeedsGuarded value) ∧
    ∀ (q : Quote) (cs value rest : List Char),
      Lexeme.string? cs = some ⟨.string q, value, rest⟩ → FeedsGuarded value ∧ ∀ more,
        Lexeme.string? (q.char :: (q.escape value ++ q.char :: more)) =
          some ⟨.string q, value, more⟩ := by
  refine ⟨fun q value rest => ⟨Lexeme.feedsGuarded_of_string?, ?_⟩, fun q cs value rest h => ?_⟩
  · exact Lexeme.string?_of_feedsGuarded q rest
  · have hguarded := Lexeme.feedsGuarded_of_string? h
    exact ⟨hguarded, fun more => Lexeme.string?_of_feedsGuarded q more hguarded⟩

/-- For instance a value in which a backslash stands before a line feed, before the quote
    and at the end, and the text `'\\\'\ '`, with a line feed for the blank. -/
theorem string?_escape_iff_feeds :
    let value := ['\\', '\n', '\\', '\x22', '\\']
    let text := ['\x27', '\\', '\\', '\\', '\x27', '\\', '\n', '\x27', ')']
    Lexeme.string? ('\x22' :: (Quote.double.escape value ++ ['\x22', ')'])) =
        some ⟨.string .double, value, [')']⟩ ∧
      Lexeme.string? text = some ⟨.string .single, ['\\', '\x27', '\\', '\n'], [')']⟩ ∧
      FeedsGuarded ['\\', '\x27', '\\', '\n'] := by
  intro value text
  have htext : Lexeme.string? text =
      some ⟨.string .single, ['\\', '\x27', '\\', '\n'], [')']⟩ := rfl
  exact ⟨(string?_escape_iff.1 .double value [')']).mpr (by decide), htext,
    (string?_escape_iff.2 _ _ _ _ htext).1⟩

end MetricLang
