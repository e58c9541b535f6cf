-- SUMMARY: Texts without their layout: the blanks outside quoted strings taken out.
import MetricLang.Proofs.Written

/-!
# Texts without blanks

The printers put blanks between words, and no other characters of their own. To
compare a printed text with what it was read from, the blanks outside quoted
strings are taken out. `Unspaces` says what is left of a text, whatever follows it,
so that the parts of a printed text can be taken one by one.
-/

namespace MetricLang

/-- The quote that the character is. -/
def Quote.ofChar? (c : Char) : Option Quote :=
  if c = Quote.double.char then some .double
  else if c = Quote.single.char then some .single
  else none

theorem Quote.ofChar?_char (q : Quote) : ofChar? q.char = some q := by
  cases q <;> decide

/-- The characters without the blanks outside quotes. The text begins inside of the
    given quotes, if any; a backslash there takes the next character with it. -/
def unspaced : Option Quote → List Char → List Char
  | _, [] => []
  | none, c :: cs => if c = ' ' then unspaced none cs else c :: unspaced (Quote.ofChar? c) cs
  | some q, '\\' :: c :: cs => '\\' :: c :: unspaced (some q) cs
  | some q, c :: cs => c :: unspaced (if c = q.char then none else some q) cs

/-- The text without the blanks outside quoted strings. -/
def withoutBlanks (s : String) : String := String.ofList (unspaced none s.toList)

theorem unspaced_blank (rest : List Char) : unspaced none (' ' :: rest) = unspaced none rest := rfl

theorem unspaced_cons {c : Char} (hblank : c ≠ ' ') (rest : List Char) :
    unspaced none (c :: rest) = c :: unspaced (Quote.ofChar? c) rest :=
  if_neg hblank

/-- Inside quotes, every character stays. -/
theorem unspaced_quoted {q : Quote} {c : Char} (hslash : c ≠ '\\') (rest : List Char) :
    unspaced (some q) (c :: rest) = c :: unspaced (if c = q.char then none else some q) rest := by
  rw [unspaced]
  exact fun _ _ h => absurd h hslash

/-- An escaped text goes up to the quote that closes it. -/
theorem unspaced_escape (q : Quote) (cs rest : List Char) :
    unspaced (some q) (q.escape cs ++ q.char :: rest) =
      q.escape cs ++ q.char :: unspaced none rest := by
  refine q.through_escape (fun _ _ => rfl) (fun c rest hslash hquote => ?_)
    (fun rest => ?_) cs rest
  · rw [unspaced_quoted hslash, if_neg hquote]
  · rw [unspaced_quoted q.char_ne_backslash, if_pos rfl]

-- ---------------------------------------------------------------------------
-- Parts of a text
-- ---------------------------------------------------------------------------

/-- What is left of the text without blanks, whatever follows it. -/
def Unspaces (s : String) (cs : List Char) : Prop :=
  ∀ rest, unspaced none (s.toList ++ rest) = cs ++ unspaced none rest

namespace Unspaces

variable {s s' : String} {cs cs' : List Char}

theorem nil : Unspaces "" [] := fun _ => rfl

theorem append (h : Unspaces s cs) (h' : Unspaces s' cs') : Unspaces (s ++ s') (cs ++ cs') := by
  intro rest
  rw [String.toList_append, List.append_assoc, h, h', List.append_assoc]

theorem blank : Unspaces " " [] := unspaced_blank

/-- A text with neither blanks nor quotes stays as it is. -/
theorem of_forall_mem (h : ∀ c ∈ s.toList, c ≠ ' ' ∧ Quote.ofChar? c = none) :
    Unspaces s s.toList := by
  intro rest
  generalize s.toList = cs at h
  induction cs with
  | nil => rfl
  | cons c cs ih =>
    obtain ⟨⟨hblank, hquote⟩, hcs⟩ := List.forall_mem_cons.mp h
    rw [List.cons_append, unspaced_cons hblank, hquote, ih hcs, List.cons_append]

theorem wrap (q : Quote) (s : String) : Unspaces (q.wrap s) (q.wrap s).toList := by
  intro rest
  have hblank : q.char ≠ ' ' := by cases q <;> decide
  simp only [q.toList_wrap, List.cons_append, List.append_assoc, List.nil_append,
    unspaced_cons hblank, Quote.ofChar?_char, unspaced_escape]

theorem withoutBlanks_eq (h : Unspaces s cs) : withoutBlanks s = String.ofList cs := by
  have hs : unspaced none s.toList = cs := by
    have hnil : unspaced none [] = [] := rfl
    simpa only [hnil, List.append_nil] using h []
  rw [withoutBlanks, hs]

end Unspaces

end MetricLang
