-- SUMMARY: Printed numbers: what they are made of, and that each is one token.
import MetricLang.Proofs.Written

/-!
# Printed numbers

A finite double prints as an optional minus, digits, and maybe a point with more
digits. The lexer takes all of it as one number.
-/

namespace MetricLang

/-- An optional minus, digits, and maybe a point with digits after it. -/
inductive IsNumeral : List Char → Prop
  | whole {sign digits : List Char} (signed : sign = [] ∨ sign = ['-']) (filled : digits ≠ [])
      (digital : ∀ c ∈ digits, c.isDigit) : IsNumeral (sign ++ digits)
  | places {sign digits places : List Char} (signed : sign = [] ∨ sign = ['-'])
      (filled : digits ≠ []) (digital : ∀ c ∈ digits, c.isDigit) (filled' : places ≠ [])
      (digital' : ∀ c ∈ places, c.isDigit) : IsNumeral (sign ++ digits ++ '.' :: places)

/-- An optional minus, digits, and maybe a point with at most fifteen digits after it,
    of which the last is no zero. -/
inductive IsFixed : List Char → Prop
  | whole {sign digits : List Char} (signed : sign = [] ∨ sign = ['-']) (filled : digits ≠ [])
      (digital : ∀ c ∈ digits, c.isDigit) : IsFixed (sign ++ digits)
  | places {sign digits places : List Char} (signed : sign = [] ∨ sign = ['-']) (filled : digits ≠ [])
      (digital : ∀ c ∈ digits, c.isDigit) (filled' : places ≠ []) (digital' : ∀ c ∈ places, c.isDigit)
      (short : places.length ≤ 15) (trimmed : places.getLast? ≠ some '0') :
      IsFixed (sign ++ digits ++ '.' :: places)

theorem IsFixed.isNumeral {cs : List Char} (h : IsFixed cs) : IsNumeral cs := by
  cases h with
  | whole signed filled digital => exact .whole signed filled digital
  | places signed filled digital filled' digital' => exact .places signed filled digital filled' digital'

-- ---------------------------------------------------------------------------
-- Printing
-- ---------------------------------------------------------------------------

namespace Double

theorem isDigit_of_mem_lastDigits {k n : Nat} {c : Char} (h : c ∈ lastDigits k n) : c.isDigit := by
  induction k generalizing n with
  | zero => cases h
  | succ k ih =>
    obtain h | h := List.mem_append.mp h
    · exact ih h
    · rw [List.mem_singleton.mp h, Nat.isDigit_digitChar]
      simp [Nat.mod_lt n (by decide : 10 > 0)]

theorem isDigit_of_mem_trimZeros {cs : List Char} (h : ∀ c ∈ cs, c.isDigit) :
    ∀ c ∈ trimZeros cs, c.isDigit := by
  intro c hc
  have hc := (List.dropWhile_suffix _).mem (List.mem_reverse.mp hc)
  exact h c (List.mem_reverse.mp hc)

theorem length_lastDigits (k n : Nat) : (lastDigits k n).length = k := by
  induction k generalizing n with
  | zero => rfl
  | succ k ih => simp [lastDigits, ih]

theorem getLast?_trimZeros (cs : List Char) : (trimZeros cs).getLast? ≠ some '0' := by
  have hhead := head?_dropWhile_all (· = '0') cs.reverse
  rw [trimZeros, List.getLast?_reverse]
  intro hlast
  simp [hlast] at hhead

theorem length_trimZeros_le (cs : List Char) : (trimZeros cs).length ≤ cs.length := by
  have hle := (List.dropWhile_suffix (fun c => decide (c = '0')) (l := cs.reverse)).length_le
  rw [List.length_reverse] at hle
  rwa [trimZeros, List.length_reverse]

theorem isFixed_finiteText (d : Double) : IsFixed d.finiteText := by
  have hsign : (if d.negative ∧ d.scaled ≠ 0 then ['-'] else []) = [] ∨
      (if d.negative ∧ d.scaled ≠ 0 then ['-'] else []) = ['-'] := by
    split
    · exact .inr rfl
    · exact .inl rfl
  have hdigits : ∀ c ∈ Nat.toDigits 10 (d.scaled / Nat.pow 10 places), c.isDigit :=
    fun c hc => Nat.isDigit_of_mem_toDigits (by decide) (by decide) hc
  have hplaces := isDigit_of_mem_trimZeros fun c (hc : c ∈ lastDigits places d.scaled) =>
    isDigit_of_mem_lastDigits hc
  have hshort := length_trimZeros_le (lastDigits places d.scaled)
  have htrimmed := getLast?_trimZeros (lastDigits places d.scaled)
  rw [length_lastDigits] at hshort
  rw [finiteText, placesText]
  generalize trimZeros (lastDigits places d.scaled) = cs at hplaces hshort htrimmed
  cases cs with
  | nil =>
    rw [List.append_nil]
    exact .whole hsign Nat.toDigits_ne_nil hdigits
  | cons c cs =>
    exact .places hsign Nat.toDigits_ne_nil hdigits (List.cons_ne_nil c cs) hplaces hshort htrimmed

theorem isNumeral_finiteText (d : Double) : IsNumeral d.finiteText := (isFixed_finiteText d).isNumeral

end Double

-- ---------------------------------------------------------------------------
-- Reading
-- ---------------------------------------------------------------------------

/-- Digits are split off as far as they go. -/
theorem splitDigits_whole {cs : List Char} (h : ∀ c ∈ cs, c.isDigit) : splitDigits cs = (cs, []) := by
  have hall : cs.all Char.isDigit := List.all_eq_true.mpr h
  simp [splitDigits, List.takeWhile_eq_self_iff.mpr h, List.dropWhile_eq_nil_iff.mpr h]

theorem splitDigits_places {cs ds : List Char} (hcs : ∀ c ∈ cs, c.isDigit)
    (hds : ∀ c ∈ ds, c.isDigit) (hne : ds ≠ []) :
    splitDigits (cs ++ '.' :: ds) = (cs ++ '.' :: ds, []) := by
  have htake : (cs ++ '.' :: ds).takeWhile Char.isDigit = cs := by
    rw [takeWhile_append_of_head (by simp), List.takeWhile_eq_self_iff.mpr hcs]
  have hdrop : (cs ++ '.' :: ds).dropWhile Char.isDigit = '.' :: ds := by
    rw [dropWhile_append_of_head (by simp), List.dropWhile_eq_nil_iff.mpr hcs, List.nil_append]
  obtain ⟨d, ds', rfl⟩ := List.exists_cons_of_ne_nil hne
  simp only [splitDigits, htake, hdrop, List.takeWhile_eq_self_iff.mpr hds,
    List.dropWhile_eq_nil_iff.mpr hds]

theorem splitSign_numeral {sign cs : List Char} (hsign : sign = [] ∨ sign = ['-'])
    (hne : cs ≠ []) (hcs : cs.head?.all fun c => c != '+' && c != '-') :
    splitSign (sign ++ cs) = (sign, cs) := by
  obtain ⟨c, ds, rfl⟩ := List.exists_cons_of_ne_nil hne
  simp only [List.head?_cons, Option.all_some, Bool.and_eq_true, bne_iff_ne] at hcs
  obtain rfl | rfl := hsign
  · simp [splitSign, hcs]
  · rfl

theorem IsNumeral.readNumber? {cs : List Char} (h : IsNumeral cs) :
    MetricLang.readNumber? cs = some (cs, []) := by
  have hhead : ∀ {digits rest : List Char}, digits ≠ [] → (∀ c ∈ digits, c.isDigit) →
      (digits ++ rest).head?.all fun c => c != '+' && c != '-' := by
    intro digits rest hne hdigits
    obtain ⟨d, ds, rfl⟩ := List.exists_cons_of_ne_nil hne
    have hd := hdigits d List.mem_cons_self
    have hplus : d ≠ '+' := by rintro rfl; cases hd
    have hminus : d ≠ '-' := by rintro rfl; cases hd
    simp [hplus, hminus]
  cases h with
  | @whole sign digits hsign hne hdigits =>
    have hsplit := splitSign_numeral hsign hne (by simpa using @hhead _ [] hne hdigits)
    simp [MetricLang.readNumber?, hsplit, splitDigits_whole hdigits, hne]
  | @places sign digits places hsign hne hdigits hne' hplaces =>
    have hsplit := splitSign_numeral hsign (List.append_ne_nil_of_left_ne_nil hne ('.' :: places))
      (hhead hne hdigits)
    rw [List.append_assoc]
    simp [MetricLang.readNumber?, hsplit, splitDigits_places hdigits hplaces hne', hne]

theorem IsNumeral.exists_digit {cs : List Char} (h : IsNumeral cs) : ∃ c ∈ cs, c.isDigit := by
  cases h with
  | whole _ hne hdigits =>
    obtain ⟨d, ds, rfl⟩ := List.exists_cons_of_ne_nil hne
    exact ⟨d, by simp, hdigits d List.mem_cons_self⟩
  | places _ hne hdigits _ _ =>
    obtain ⟨d, ds, rfl⟩ := List.exists_cons_of_ne_nil hne
    exact ⟨d, by simp, hdigits d List.mem_cons_self⟩

/-- Texts are no words of letters if one of their characters is no letter. -/
theorem sameLetters_of_mem {s word : String} {c : Char} (hc : c ∈ s.toList)
    (hletter : c.isAlpha = false) (hword : word.toList.all fun d => d.toLower.isLower) :
    sameLetters s word = false := by
  rw [← Bool.not_eq_true]
  intro hsame
  have hmem : c.toLower ∈ s.toList.map Char.toLower := List.mem_map_of_mem hc
  rw [of_decide_eq_true hsame, List.mem_map] at hmem
  obtain ⟨d, hd, hlower⟩ := hmem
  have := isAlpha_of_toLower (hlower ▸ List.all_eq_true.mp hword d hd)
  simp [hletter] at this

theorem Keyword.ofText?_of_mem {s : String} {c : Char} (hc : c ∈ s.toList)
    (hletter : c.isAlpha = false) : ofText? s = none := by
  refine List.find?_eq_none.mpr fun k _ => ?_
  rw [sameLetters_comm, sameLetters_of_mem hc hletter (by cases k <;> decide)]
  simp

theorem isAlpha_of_isDigit {c : Char} (h : c.isDigit) : c.isAlpha = false := by
  rw [← Bool.not_eq_true]
  intro halpha
  simp [isDigit_of_isAlpha halpha] at h

theorem IsNumeral.read? {cs : List Char} (h : IsNumeral cs) :
    Lexeme.read? {} cs = some ⟨if '.' ∈ cs then .float else .integer, cs, []⟩ := by
  have hne : cs ≠ [] := ne_nil_of_readNumber? h.readNumber?
  obtain ⟨c, ds, hcs⟩ := List.exists_cons_of_ne_nil hne
  have hplain := isPlainChar_of_isNumberChar
    (isNumberChar_of_mem_readNumber? h.readNumber? c (by simp [hcs]))
  have hstring : Lexeme.string? cs = none := by
    rw [hcs]
    exact Lexeme.string?_of_isPlainChar ds hplain
  exact Lexeme.read?_eq_some_iff.mpr (.inr ⟨hstring, .inl (by simp [Lexeme.number?, h.readNumber?])⟩)

theorem Double.isNaN_of_isFinite {d : Double} (h : d.isFinite) : d.isNaN = false := by
  simp only [isFinite, isNaN, decide_eq_true_eq, decide_eq_false_iff_not] at h ⊢
  omega

theorem Double.toList_text {d : Double} (h : d.isFinite) : d.text.toList = d.finiteText := by
  simp [text, isNaN_of_isFinite h, h]

/-- A printed number is a word of one number. -/
theorem Double.exists_word {d : Double} (h : d.isFinite) :
    ∃ w : Word, w.Spells d.text ∧ w.isNumber ∧ w.endsInComment = false ∧
      (Keyword.ofText? d.text) = none := by
  have hnumeral := d.isNumeral_finiteText
  rw [← toList_text h] at hnumeral
  have hne := ne_nil_of_readNumber? hnumeral.readNumber?
  obtain ⟨c, cs, hcs⟩ := List.exists_cons_of_ne_nil hne
  have hplain := isPlainChar_of_isNumberChar
    (isNumberChar_of_mem_readNumber? hnumeral.readNumber? c (by simp [hcs]))
  have hblank := not_isBlank_of_isPlainChar hplain
  obtain ⟨t, _, _, hkind, htext, hspells⟩ := Word.spells_of_read (by simp [hcs, hblank])
    hnumeral.read? (by split <;> simp)
  obtain ⟨digit, hmem, hdigit⟩ := hnumeral.exists_digit
  have hletter := isAlpha_of_isDigit hdigit
  refine ⟨⟨t, []⟩, hspells, ?_, ?_, Keyword.ofText?_of_mem hmem hletter⟩
  · simp only [Word.isNumber, Token.isNumber, hkind]
    split <;> simp
  · rw [Word.endsInComment]
    simp only [Word.tokens, List.getLast_singleton, htext]
    exact sameLetters_of_mem hmem hletter (by decide)

/-- A printed number in front of what stops words is one number. -/
theorem Double.tokensAt_text {d : Double} (h : d.isFinite) {p : Position} {rest : List Char}
    {us : List Token} (hstops : Stops rest)
    (hus : tokensAt {} (p.after d.text.toList) rest = .ok us) :
    ∃ n, tokensAt {} p (d.text.toList ++ rest) = .ok (n :: us) ∧ n.isNumber ∧ n.text = d.text := by
  obtain ⟨w, hw, hnumber, hrem, _⟩ := exists_word h
  obtain ⟨ts, v, hts, hread, hlike⟩ := hw.reads hstops (by simp [hrem]) hus
  obtain ⟨rfl, _⟩ := Word.reads_rule.mp hread
  have htext : v.text = d.text := by
    obtain ⟨_, _, _, htext⟩ := hw
    rw [hlike.text, htext]
  rw [← hlike.isNumber] at hnumber
  obtain ⟨n, more⟩ := v
  obtain ⟨hn, rfl⟩ : n.isNumber ∧ more = [] := by simpa [Word.isNumber] using hnumber
  exact ⟨n, hts, hn, by simpa [Word.text, Word.tokens] using htext⟩

end MetricLang
