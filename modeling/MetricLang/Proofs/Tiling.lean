-- SUMMARY: Tokens tile the text: each covers a slice of it, and only trivia lies between them.
import Mathlib.Data.List.Induction
import MetricLang.Proofs.Written

/-!
# Tiling

The lexer drops nothing but trivia. `Tiles` lays the tokens of a text side by side
with the trivia between them, and says for each token which characters it stands
for and where they are. One step of the lexer lays one token (`next_tiles`), so all
steps together tile the text up to its end or up to an error (`drain_tiles`).
-/

namespace MetricLang

-- ---------------------------------------------------------------------------
-- Places counted afresh
-- ---------------------------------------------------------------------------

/-- The place after the characters at the beginning of a text: bytes before it, one
    line more than line feeds, and one column more than characters since the last. -/
def placeAfter (before : List Char) : Position :=
  ⟨byteCount before, 1 + before.count '\n', 1 + (before.reverse.takeWhile (· ≠ '\n')).length⟩

/-- Moving through a text step by step gets to the place that counting finds. -/
theorem Position.start_after (before : List Char) : start.after before = placeAfter before := by
  induction before using List.reverseRecOn with
  | nil => rfl
  | append_singleton cs c ih =>
    rw [after_append, ih, after_cons, after_nil, next]
    by_cases hc : c = '\n'
    · simp [placeAfter, hc, byteCount, Nat.add_assoc]
    · simp [placeAfter, hc, byteCount, Nat.add_comm]

theorem byteCount_append (cs ds : List Char) : byteCount (cs ++ ds) = byteCount cs + byteCount ds := by
  simp [byteCount]

/-- Blanks and, if `comments` is set, comments, in front of the text `after`. A comment
    is the word for comments with no other character than a blank behind it, and
    goes on up to where a line ends. -/
inductive IsTrivia (comments : Bool) (after : List Char) : List Char → Prop
  | nil : IsTrivia comments after []
  | blank {c : Char} {cs : List Char} (blank : isBlank c) (more : IsTrivia comments after cs) :
      IsTrivia comments after (c :: cs)
  | comment {r e m : Char} {line cs : List Char} (on : comments = true)
      (word : [r, e, m].map Char.toLower = ['r', 'e', 'm'])
      (alone : (line ++ (cs ++ after)).head?.all isBlank) (inLine : ∀ c ∈ line, isLineEnd c = false)
      (ends : (cs ++ after).head?.all isLineEnd) (more : IsTrivia comments after cs) :
      IsTrivia comments after (r :: e :: m :: (line ++ cs))

namespace IsTrivia

variable {comments : Bool} {after cs ds : List Char}

theorem blanks (hcs : ∀ c ∈ cs, isBlank c) (hds : IsTrivia comments after ds) :
    IsTrivia comments after (cs ++ ds) := by
  induction cs with
  | nil => exact hds
  | cons c cs ih =>
    obtain ⟨hc, hcs⟩ := List.forall_mem_cons.mp hcs
    exact .blank hc (ih hcs)

end IsTrivia

/-- One piece of trivia in front of more is trivia. -/
theorem IsTrivia.of_readTrivia? {comments : Bool} {after taken cs : List Char}
    (h : readTrivia? comments (taken ++ (cs ++ after)) = some (taken, cs ++ after))
    (hcs : IsTrivia comments after cs) : IsTrivia comments after (taken ++ cs) := by
  generalize htext : taken ++ (cs ++ after) = text at h
  cases hblanks : readBlanks? text with
  | some r =>
    have hr : readBlanks? text = some (taken, cs ++ after) := by
      simpa [readTrivia?, hblanks] using h
    unfold readBlanks? at hr
    split at hr
    · cases hr
    · simp only [Option.some.injEq, Prod.mk.injEq] at hr
      refine blanks (fun c hc => ?_) hcs
      rw [← hr.1] at hc
      exact List.mem_takeWhile_imp hc
  | none =>
    have hr : (if comments then readComment? text else none) = some (taken, cs ++ after) := by
      simpa [readTrivia?, hblanks] using h
    split at hr
    · next hon =>
      unfold readComment? at hr
      split at hr
      · next r e m rest =>
        split at hr
        · next hword =>
          simp only [Option.some.injEq, Prod.mk.injEq] at hr
          obtain ⟨rfl, hrest⟩ := hr
          have hline := List.takeWhile_append_dropWhile (p := (!isLineEnd ·)) (l := rest)
          have hends := head?_dropWhile_all (!isLineEnd ·) rest
          rw [hrest] at hline hends
          refine .comment hon hword.1 ?_ (fun c hc => ?_) ?_ hcs
          · rw [hline]
            exact hword.2
          · simpa using List.mem_takeWhile_imp hc
          · simpa using hends
        · cases hr
      · cases hr
    · cases hr

/-- What is skipped at the start of a text is trivia. -/
theorem exists_isTrivia (comments : Bool) (cs : List Char) :
    ∃ gap, cs = gap ++ skipTrivia comments cs ∧ IsTrivia comments (skipTrivia comments cs) gap := by
  fun_induction skipTrivia comments cs with
  | case1 cs _ => exact ⟨[], rfl, .nil⟩
  | case2 cs taken rest h ih =>
    obtain ⟨gap, hgap, htrivia⟩ := ih
    obtain ⟨rfl, _⟩ := append_of_readTrivia? h
    refine ⟨taken ++ gap, by rw [List.append_assoc, ← hgap], ?_⟩
    rw [hgap] at h
    exact .of_readTrivia? h htrivia

-- ---------------------------------------------------------------------------
-- Tokens
-- ---------------------------------------------------------------------------

/-- The token is written `taken`, and `before` comes before it. A string is written as
    what reads as its text in its quotes, any other token as its text. -/
structure Token.WrittenAs (t : Token) (before taken : List Char) : Prop where
  filled : taken ≠ []
  start : t.start = placeAfter before
  stop : t.stop = byteCount (before ++ taken)
  meaning : match t.kind with
    | .string q => Lexeme.string? taken = some ⟨.string q, t.text.toList, []⟩
    | .endOfInput => False
    | .identifier | .integer | .float | .punct => t.text.toList = taken

/-- A string is read alike where the text ends behind it. -/
theorem Quote.readBody?_of_append {q : Quote} {cs value rest : List Char}
    (h : q.readBody? cs = some (value, rest)) :
    ∃ taken, cs = taken ++ rest ∧ q.readBody? taken = some (value, []) := by
  fun_induction Quote.readBody? q cs generalizing value rest with
  | case1 => cases h
  | case2 c cs ih =>
    obtain ⟨⟨v, r⟩, hr, he⟩ := Option.map_eq_some_iff.mp h
    cases he
    obtain ⟨taken, rfl, htaken⟩ := ih hr
    exact ⟨'\\' :: c :: taken, rfl, by simp [readBody?, htaken]⟩
  | case3 c cs =>
    cases h
    exact ⟨[q.char], rfl, q.readBody?_char []⟩
  | case4 => cases h
  | case5 c cs hslash hquote hplain ih =>
    obtain ⟨⟨v, r⟩, hr, he⟩ := Option.map_eq_some_iff.mp h
    cases he
    obtain ⟨taken, rfl, htaken⟩ := ih hr
    obtain ⟨hslash, hfeed⟩ := not_or.mp hplain
    exact ⟨c :: taken, rfl, by rw [readBody?_cons hslash hquote hfeed, htaken]; rfl⟩

namespace Lexeme

/-- What is read as a token is written before what is left, and means what was read. -/
theorem read?_written {config : LexerConfig} {cs : List Char} {l : Lexeme}
    (h : read? config cs = some l) : ∃ taken, cs = taken ++ l.rest ∧ taken ≠ [] ∧
      match l.kind with
      | .string q => string? taken = some ⟨.string q, l.text, []⟩
      | .endOfInput => False
      | .identifier | .integer | .float | .punct => l.text = taken := by
  obtain ⟨kind, text, rest⟩ := l
  obtain h | ⟨_, h | ⟨_, h | ⟨_, h⟩⟩⟩ := read?_eq_some_iff.mp h
  · obtain ⟨q, rfl, hq⟩ := string?_eq_some h
    cases cs with
    | nil => cases hq
    | cons c cs =>
      simp only [Quote.read?] at hq
      split at hq
      · next hc =>
        obtain ⟨taken, rfl, htaken⟩ := Quote.readBody?_of_append hq
        exact ⟨c :: taken, rfl, List.cons_ne_nil c taken,
          string?_of_read? (by simp [Quote.read?, hc, htaken])⟩
      · cases hq
  · obtain ⟨hr, hkind⟩ := number?_eq_some h
    refine ⟨text, (append_of_readNumber? hr).symm, ne_nil_of_readNumber? hr, ?_⟩
    dsimp only at hkind
    by_cases hpoint : '.' ∈ text
    · rw [if_pos hpoint] at hkind
      subst hkind
      rfl
    · rw [if_neg hpoint] at hkind
      subst hkind
      rfl
  · obtain ⟨hr, rfl⟩ := identifier?_eq_some h
    exact ⟨text, (append_of_readIdentifier? hr).symm, ne_nil_of_readIdentifier? hr, rfl⟩
  · obtain ⟨c, _, rfl, rfl, rfl⟩ := punct?_eq_some h
    exact ⟨[c], rfl, List.cons_ne_nil c [], rfl⟩

end Lexeme

-- ---------------------------------------------------------------------------
-- Tiling
-- ---------------------------------------------------------------------------

/-- The tokens tile a text behind `before` up to `left`, where the lexer stops: each
    is written behind the one before it, with only trivia between them. -/
inductive Tiles (config : LexerConfig) (left : List Char) : List Char → List Char → List Token → Prop
  | done {before gap : List Char} (trivia : IsTrivia config.comments left gap) :
      Tiles config left before (gap ++ left) []
  | token {before gap taken after : List Char} {t : Token} {ts : List Token}
      (trivia : IsTrivia config.comments (taken ++ after) gap)
      (written : t.WrittenAs (before ++ gap) taken)
      (more : Tiles config left (before ++ gap ++ taken) after ts) :
      Tiles config left before (gap ++ (taken ++ after)) (t :: ts)

namespace Tiles

variable {config : LexerConfig} {left before cs : List Char} {ts : List Token}

/-- The text that is tiled ends with what is left. -/
theorem exists_append (h : Tiles config left before cs ts) : ∃ ds, cs = ds ++ left := by
  induction h with
  | done => exact ⟨_, rfl⟩
  | @token _ gap taken _ _ _ _ _ _ ih =>
    obtain ⟨ds, rfl⟩ := ih
    exact ⟨gap ++ (taken ++ ds), by simp⟩

theorem start_lt_stop (h : Tiles config left before cs ts) :
    ∀ t ∈ ts, byteCount before ≤ t.start.offset ∧ t.start.offset < t.stop := by
  induction h with
  | done => exact fun t ht => absurd ht List.not_mem_nil
  | token _ hw _ ih =>
    refine List.forall_mem_cons.mpr ⟨?_, fun u hu => ?_⟩
    · have := byteCount_pos hw.filled
      simp only [hw.stop, hw.start, placeAfter, byteCount_append]
      omega
    · refine ⟨Nat.le_trans ?_ (ih u hu).1, (ih u hu).2⟩
      rw [byteCount_append, byteCount_append, Nat.add_assoc]
      exact Nat.le_add_right _ _

/-- The end of the input is no token that is written. -/
theorem isEnd_eq_false (h : Tiles config left before cs ts) : ∀ t ∈ ts, t.isEnd = false := by
  induction h with
  | done => exact fun t ht => absurd ht List.not_mem_nil
  | @token _ _ _ _ t _ _ hw _ ih =>
    refine List.forall_mem_cons.mpr ⟨?_, ih⟩
    have hmeaning := hw.meaning
    cases hkind : t.kind with
    | endOfInput => simp [hkind] at hmeaning
    | _ => simp [Token.isEnd, hkind]

end Tiles

namespace TokenStream

/-- A step finds trivia and behind it the end, a token, or a character that begins none. -/
theorem next_tiles (config : LexerConfig) (before cs : List Char) :
    ∃ gap left, cs = gap ++ left ∧ IsTrivia config.comments left gap ∧
      match next ⟨config, cs, placeAfter before⟩ with
      | .finished last => left = [] ∧ last.position = placeAfter (before ++ gap)
      | .failed e last => (∃ c ds, left = c :: ds ∧ e = .atStart c (placeAfter (before ++ gap))) ∧
          last.position = placeAfter (before ++ gap)
      | .token t more => ∃ taken, left = taken ++ more.rest ∧ t.WrittenAs (before ++ gap) taken ∧
          more = ⟨config, more.rest, placeAfter (before ++ gap ++ taken)⟩ := by
  obtain ⟨gap, hgap, htrivia⟩ := exists_isTrivia config.comments cs
  have hskip : skip ⟨config, cs, placeAfter before⟩ =
      ⟨config, skipTrivia config.comments cs, placeAfter (before ++ gap)⟩ := by
    have hmove : (placeAfter before).ofRest cs (skipTrivia config.comments cs) =
        placeAfter (before ++ gap) := by
      rw [← Position.start_after, ← Position.start_after, Position.after_append,
        ← Position.ofRest_append _ gap (skipTrivia config.comments cs), ← hgap]
    simp only [skip, moveTo, hmove]
  refine ⟨gap, _, hgap, htrivia, ?_⟩
  rw [next, hskip]
  generalize skipTrivia config.comments cs = left
  cases left with
  | nil => exact ⟨rfl, rfl⟩
  | cons c ds =>
    simp only [cut]
    cases hread : Lexeme.read? config (c :: ds) with
    | none => exact ⟨⟨c, ds, rfl, rfl⟩, rfl⟩
    | some l =>
      obtain ⟨taken, htaken, hne, hmeaning⟩ := Lexeme.read?_written hread
      have hmove : (placeAfter (before ++ gap)).ofRest (c :: ds) l.rest =
          placeAfter (before ++ gap ++ taken) := by
        rw [htaken, Position.ofRest_append, ← Position.start_after, ← Position.start_after,
          Position.after_append _ (before ++ gap)]
      refine ⟨taken, htaken, ⟨hne, rfl, ?_, ?_⟩, ?_⟩
      · simp only [moveTo, hmove]
        rfl
      · simpa using hmeaning
      · simp [moveTo, hmove]

/-- What all steps find tiles the text up to the end, or up to a character that begins
    no token. -/
theorem drain_tiles (config : LexerConfig) (before cs : List Char) :
    ∃ done left, cs = done ++ left ∧
      Tiles config left before cs (drain ⟨config, cs, placeAfter before⟩).tokens ∧
      (drain ⟨config, cs, placeAfter before⟩).last.position = placeAfter (before ++ done) ∧
      match (drain ⟨config, cs, placeAfter before⟩).failure with
      | none => left = []
      | some e => ∃ c ds, left = c :: ds ∧ e = .atStart c (placeAfter (before ++ done)) := by
  induction hn : cs.length using Nat.strongRecOn generalizing before cs with
  | ind n ih =>
    obtain ⟨gap, left, hcs, htrivia, hnext⟩ := next_tiles config before cs
    rw [drain_eq]
    cases hstep : next ⟨config, cs, placeAfter before⟩ with
    | finished last =>
      rw [hstep] at hnext
      obtain ⟨rfl, hlast⟩ := hnext
      refine ⟨gap, [], hcs, ?_, hlast, rfl⟩
      rw [hcs]
      exact .done htrivia
    | failed e last =>
      rw [hstep] at hnext
      obtain ⟨herror, hlast⟩ := hnext
      refine ⟨gap, left, hcs, ?_, hlast, herror⟩
      rw [hcs]
      exact .done htrivia
    | token t more =>
      have hlength := length_of_next hstep
      rw [hstep] at hnext
      obtain ⟨taken, rfl, hwritten, hmore⟩ := hnext
      rw [hn] at hlength
      obtain ⟨done, left, hrest, htiles, hlast, hend⟩ :=
        ih _ hlength (before ++ gap ++ taken) more.rest rfl
      rw [← hmore] at htiles hlast hend
      refine ⟨gap ++ (taken ++ done), left, ?_, ?_, ?_, ?_⟩
      · rw [hcs, hrest]
        simp
      · rw [hcs]
        exact .token htrivia hwritten htiles
      · simpa using hlast
      · simpa using hend

end TokenStream

/-- The end of the input comes last, and nowhere else. -/
theorem exists_row_of_tokenize {config : LexerConfig} {text : String} {ts : List Token}
    (h : tokenize config text = .ok ts) :
    ∃ row p, ts = row ++ [.endAt p] ∧ ∀ t ∈ row, t.isEnd = false := by
  obtain ⟨_, _, _, htiles, _⟩ := TokenStream.drain_tiles config [] text.toList
  have hrow : ∀ t ∈ (TokenStream.ofText config text).drain.tokens, t.isEnd = false :=
    htiles.isEnd_eq_false
  simp only [tokenize] at h
  generalize (TokenStream.ofText config text).drain = d at h hrow
  obtain ⟨row, failure, last⟩ := d
  cases failure with
  | none =>
    cases h
    exact ⟨row, last.position, rfl, hrow⟩
  | some e => cases h

end MetricLang
