-- SUMMARY: Texts of one line, which the entry points read as they stand.
import MetricLang.Language
import MetricLang.Proofs.Written

/-!
# Reading whole texts

The entry points take line breaks out of a text before they read it. A text that
has none is read as it stands.
-/

namespace MetricLang

/-- Is there no line break in the text? -/
def IsLine (s : String) : Bool := s.toList.all (!isLineEnd ·)

namespace IsLine

@[simp] theorem append (s t : String) : IsLine (s ++ t) = (IsLine s && IsLine t) := by
  simp [IsLine]

theorem not_mem {s : String} (h : IsLine s) : '\n' ∉ s.toList := by
  intro hmem
  simpa [isLineEnd] using List.all_eq_true.mp h _ hmem

theorem withoutLineBreaks_eq {s : String} (h : IsLine s) : withoutLineBreaks s = s := by
  have hfilter : s.toList.filter (!isLineEnd ·) = s.toList :=
    List.filter_eq_self.mpr (by simpa [IsLine] using h)
  rw [MetricLang.withoutLineBreaks, hfilter, String.ofList_toList]

end IsLine

theorem not_isLineEnd_of_isPlainChar {c : Char} (h : isPlainChar c) : isLineEnd c = false := by
  rw [← Bool.not_eq_true]
  intro hc
  simp [not_isPlainChar_of_isBlank (isBlank_of_isLineEnd hc)] at h

theorem Word.Spells.isPlainChar_of_mem {w : Word} {s : String} (h : w.Spells s) :
    ∀ c ∈ s.toList, isPlainChar c := by
  obtain ⟨ps, hchars, hcut, hplain, _⟩ := h.exists_row
  rw [← hchars]
  exact hcut.isPlainChar_of_mem hplain

theorem Word.Spells.toList_ne_nil {w : Word} {s : String} (h : w.Spells s) : s.toList ≠ [] := by
  obtain ⟨ps, hchars, hcut, hplain, htokens, _⟩ := h.exists_row
  rw [← hchars]
  cases ps with
  | nil => simp [tokens] at htokens
  | cons p ps => exact hcut.charsOf_ne_nil (hplain p List.mem_cons_self)

/-- A word has no line breaks. -/
theorem Word.Spells.isLine {w : Word} {s : String} (h : w.Spells s) : IsLine s := by
  rw [IsLine, List.all_eq_true]
  intro c hc
  simp [not_isLineEnd_of_isPlainChar (h.isPlainChar_of_mem c hc)]

/-- No word is a string in quotes. -/
theorem Quote.not_spells_wrap {q : Quote} {s : String} {w : Word} : ¬ w.Spells (q.wrap s) := by
  intro h
  have hplain := h.isPlainChar_of_mem q.char (by simp [q.toList_wrap])
  simp [not_isPlainChar_quote] at hplain

theorem IsName.isLine {s : String} (h : IsName s) : IsLine s := by
  obtain ⟨_, _, _, hw⟩ := h.exists_word
  exact hw.isLine

theorem Keyword.isLine (k : Keyword) : IsLine k.spelling := k.isName.isLine

namespace Quote

theorem mem_escape {q : Quote} {c : Char} {cs : List Char} (h : c ∈ q.escape cs) :
    c ∈ cs ∨ c = '\\' := by
  fun_induction escape q cs <;> grind

/-- A string in quotes has the line breaks that it has without them. -/
theorem isLine_wrap {q : Quote} {s : String} (h : IsLine s) : IsLine (q.wrap s) := by
  simp only [IsLine, List.all_eq_true] at h ⊢
  intro c hc
  simp only [q.toList_wrap, List.mem_cons, List.mem_append, List.not_mem_nil, or_false] at hc
  obtain rfl | hc | rfl := hc
  · cases q <;> rfl
  · obtain hc | rfl := mem_escape hc
    · exact h c hc
    · rfl
  · cases q <;> rfl

end Quote

/-- A text is read by a rule that reads all of its tokens. -/
theorem readText_eq_ok {config : LexerConfig} {error : SyntaxError → ParseError} {rule : Rule α}
    {text : String} {ts : List Token} {x : α} (hts : tokensOf config text = .ok ts) :
    readText config error rule text = .ok x ↔ rule.complete ts = .ok x := by
  simp [readText, bind_eq_ok, hts, mapError_eq_ok]

/-- What is read of a text is read of its tokens, up to their end. -/
theorem exists_reads_of_readText {config : LexerConfig} {error : SyntaxError → ParseError}
    {rule : Rule α} {text : String} {x : α} (h : readText config error rule text = .ok x) :
    ∃ ts us, tokensOf config text = .ok ts ∧ rule.Reads ts x us ∧ (peek us).isEnd := by
  obtain ⟨ts, hts, hcomplete⟩ := bind_eq_ok.mp h
  obtain ⟨us, hread, hend⟩ := Rule.complete_eq_ok.mp (mapError_eq_ok.mp hcomplete)
  exact ⟨ts, us, hts, hread, hend⟩

theorem IsLine.tokensOf_eq_ok {s : String} (hline : IsLine s) {ts : List Token} :
    tokensOf {} s = .ok ts ↔ tokensAt {} .start s.toList = .ok ts := by
  rw [tokensOf, mapError_eq_ok, IsLine.withoutLineBreaks_eq hline, tokenize_eq_tokensAt]

/-- A rule that reads all tokens of a line reads the line. -/
theorem readText_of_reads {error : SyntaxError → ParseError} {rule : Rule α} {x : α} {s : String}
    {ts us : List Token} (hline : IsLine s) (hts : tokensAt {} .start s.toList = .ok ts)
    (hread : rule.Reads ts x us) (hend : (peek us).isEnd) :
    readText {} error rule s = .ok x :=
  (readText_eq_ok ((IsLine.tokensOf_eq_ok hline).mpr hts)).mpr (Rule.complete_eq_ok.mpr ⟨us, hread, hend⟩)

end MetricLang
