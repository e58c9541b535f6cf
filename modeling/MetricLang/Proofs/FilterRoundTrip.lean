-- SUMMARY: Reading undoes printing for filters.
import MetricLang.Proofs.FilterText

/-!
# Round trips of filters

A legible filter of which no two params fuse comes back as `Filter.reread` says when
it is printed and read again. That is an equal filter if its numbers print in full
and each of its lists has one connective between any two items.
-/

namespace MetricLang

-- ---------------------------------------------------------------------------
-- Printed filters are lines
-- ---------------------------------------------------------------------------

theorem Connective.isLine_spelling (c : Connective) : IsLine c.spelling := by
  cases c <;> decide

theorem Connective.isLine_text (c : Connective) : IsLine c.text := by
  cases c <;> decide

theorem Relation.isLine_text (r : Relation) : IsLine r.text := by
  cases r <;> decide

theorem Value.Legible.isLine {v : Value} (h : v.Legible) : IsLine v.text := by
  cases hs : v.isString with
  | true =>
    cases v with
    | string s q => exact Quote.isLine_wrap h
    | _ => cases hs
  | false =>
    obtain ⟨w, hw, _⟩ := h.exists_word hs
    exact hw.isLine

theorem Value.LegibleInFilter.isLine {v : Value} (h : v.LegibleInFilter) : IsLine v.text := by
  cases v with
  | connective c => exact c.isLine_spelling
  | _ => exact Value.Legible.isLine h.1

theorem ValueList.isLine_textTail {vs : List Value} {cs : List Connective}
    (h : ∀ v ∈ vs, v.LegibleInFilter) : IsLine (textTail vs cs) := by
  induction vs generalizing cs with
  | nil => rfl
  | cons v vs ih =>
    obtain ⟨hv, hvs⟩ := List.forall_mem_cons.mp h
    simp [textTail, Connective.isLine_text, hv.isLine, ih hvs]

theorem FilterValue.Legible.isLine {v : FilterValue} (h : v.Legible) : IsLine v.text := by
  cases v with
  | single v => exact Value.LegibleInFilter.isLine h
  | list l =>
    obtain ⟨items, cs⟩ := l
    cases items with
    | nil =>
      have htext : text (.list ⟨[], cs⟩) = "()" := rfl
      rw [htext]
      decide
    | cons v vs =>
      obtain ⟨hv, hvs⟩ := List.forall_mem_cons.mp h.items
      have hopen : IsLine "(" := by decide
      have hclose : IsLine ")" := by decide
      simp [text, ValueList.text, hopen, hclose, hv.isLine, ValueList.isLine_textTail hvs]

theorem Condition.Legible.isLine {c : Condition} (h : c.Legible) : IsLine c.text := by
  obtain ⟨w, hw, _⟩ := h.key
  have hsign : IsLine (if c.negative then "!" else "") := by
    split <;> decide
  simp [text, hsign, hw.isLine, Relation.isLine_text, h.value.isLine]

namespace Param

mutual

theorem isLine_text (p : Param) (h : p.Legible) : IsLine p.text := by
  cases p with
  | group ps =>
    have hopen : IsLine "(" := by decide
    have hclose : IsLine ")" := by decide
    simp [text, hopen, hclose, isLine_textList ps h]
  | connective c => exact c.isLine_text
  | condition c => exact Condition.Legible.isLine h
  | star => decide

theorem isLine_textList (ps : List Param) (h : LegibleIn ps) : IsLine (textList ps) := by
  cases ps with
  | nil => rfl
  | cons p ps => simp [textList, isLine_text p h.1, isLine_textList ps h.2.2]

end

end Param

namespace Filter

/-- A printed filter that is legible is read back. -/
theorem Legible.readFilter {f : Filter} (h : f.Legible) (hunfused : f.isUnfused)
    (hrem : ¬ f.EndsInComment) : MetricLang.readFilter f.text = .ok f.reread := by
  have hend := tokensAt_nil {} (Position.start.after f.text.toList)
  obtain ⟨ts, hts, hread⟩ := h.reads_text hunfused rfl (fun h => absurd h hrem) rfl hend
  rw [List.append_nil] at hts
  exact readText_of_reads (Param.isLine_textList f.params h) hts hread rfl

end Filter

-- ---------------------------------------------------------------------------
-- What comes back is equal
-- ---------------------------------------------------------------------------

theorem Value.reread_beq {v : Value} (h : ∀ d, v = .number d → d.reread == d) :
    v.reread == v := by
  cases v with
  | boolean b => exact beq_self_eq_true b
  | identifier name => exact beq_self_eq_true name
  | string s q => exact Bool.and_eq_true_iff.mpr ⟨beq_self_eq_true s, beq_self_eq_true q⟩
  | number d => exact h d rfl
  | wildcard pattern => exact beq_self_eq_true pattern
  | connective c => exact beq_self_eq_true c

namespace ValueList

/-- The connectives that print are all connectives where there is one for each item. -/
theorem shown_eq_iff {vs : List Value} {cs : List Connective} :
    shown vs cs = cs ↔ cs.length = vs.length := by
  induction vs generalizing cs with
  | nil => cases cs <;> simp [shown]
  | cons v vs ih =>
    cases cs with
    | nil => simp [shown]
    | cons c cs => simp [shown, ih]

theorem map_reread_beq {vs : List Value} (h : ∀ d, .number d ∈ vs → d.reread == d) :
    vs.map Value.reread == vs := by
  induction vs with
  | nil => rfl
  | cons v vs ih =>
    have hv : v.reread == v := Value.reread_beq fun d hd => h d (hd ▸ List.mem_cons_self)
    have hvs := ih fun d hd => h d (List.mem_cons_of_mem _ hd)
    simpa using ⟨hv, hvs⟩

theorem reread_beq {l : ValueList} (h : ∀ d, .number d ∈ l.items → d.reread == d) :
    l.reread == l ↔ l.Regular := by
  obtain ⟨items, cs⟩ := l
  have hitems := map_reread_beq h
  have hbeq : (reread ⟨items, cs⟩ == ⟨items, cs⟩) =
      ((items.map Value.reread == items) && (shown items.tail cs == cs)) := rfl
  rw [hbeq, hitems, Bool.true_and, beq_iff_eq, shown_eq_iff, Regular, List.length_tail]

end ValueList

theorem Condition.Exact.reread_beq {c : Condition} (h : c.Exact) :
    c.reread == c ↔ c.value.Regular := by
  obtain ⟨negative, key, relation, value⟩ := c
  have hbeq : (reread ⟨negative, key, relation, value⟩ == ⟨negative, key, relation, value⟩) =
      (negative == negative && (key == key && (relation == relation && value.reread == value))) := rfl
  rw [hbeq]
  simp only [beq_self_eq_true, Bool.true_and]
  cases value with
  | single v =>
    simp only [FilterValue.Regular, iff_true]
    exact Value.reread_beq fun d hd => h d (hd ▸ List.mem_singleton_self _)
  | list l => exact ValueList.reread_beq h

namespace Param

mutual

/-- A param is equal to what its conditions are changed to if each of them is. -/
theorem equal_mapConditions {f : Condition → Condition} (p : Param) :
    (p.mapConditions f).equal p ↔ ∀ c ∈ p.conditions, f c == c := by
  cases p with
  | group ps => simp only [mapConditions, equal, conditions, equalList_mapConditionsIn ps]
  | connective c => simp [mapConditions, equal, conditions]
  | condition c => simp [mapConditions, equal, conditions]
  | star => simp [mapConditions, equal, conditions]

theorem equalList_mapConditionsIn {f : Condition → Condition} (ps : List Param) :
    equalList (mapConditionsIn f ps) ps ↔ ∀ c ∈ conditionsIn ps, f c == c := by
  cases ps with
  | nil => simp [mapConditionsIn, equalList, conditionsIn]
  | cons p ps =>
    simp only [mapConditionsIn, equalList, conditionsIn, List.forall_mem_append,
      Bool.and_eq_true, equal_mapConditions p, equalList_mapConditionsIn ps]

end

theorem beq_eq_equalList (ps qs : List Param) : (ps == qs) = equalList ps qs := by
  induction ps generalizing qs with
  | nil => cases qs <;> simp [equalList]
  | cons p ps ih =>
    cases qs with
    | nil => simp [equalList]
    | cons q qs =>
      rw [equalList, ← ih]
      rfl

end Param

namespace Filter

/-- What is read is the same filter if its lists are regular. -/
theorem reread_beq {f : Filter} (h : ∀ c ∈ f.conditions, c.Exact) :
    f.reread == f ↔ ∀ c ∈ f.conditions, c.value.Regular := by
  have hbeq : (f.reread == f) = Param.equalList (Param.mapConditionsIn Condition.reread f.params)
      f.params := by
    rw [params, Param.mapConditionsIn, Param.equalList, ← Param.beq_eq_equalList]
    rfl
  rw [hbeq, Param.equalList_mapConditionsIn]
  exact forall₂_congr fun c hc => (h c hc).reread_beq

/-- Reading undoes printing: a legible filter with exact numbers comes back equal, but
    for lists that do not have one connective between any two items. -/
theorem readFilter_text (f : Filter) (h : f.Legible) (hunfused : f.isUnfused)
    (hrem : ¬ f.EndsInComment) (hexact : ∀ c ∈ f.conditions, c.Exact) :
    ∃ g, readFilter f.text = .ok g ∧ (g == f ↔ ∀ c ∈ f.conditions, c.value.Regular) :=
  ⟨f.reread, h.readFilter hunfused hrem, reread_beq hexact⟩

/-- For instance a condition, a connective and a group with a list of values. -/
theorem readFilter_text_group :
    let f : Filter := ⟨.condition (.tag "env" "prod"), [.connective .and, .group
      [.condition ⟨true, "role", .isIn, .list ⟨[.identifier "db", .string "a b" .double], [.or]⟩⟩]]⟩
    ∃ g, readFilter f.text = .ok g ∧ g == f := by
  intro f
  have henv : IsName "env" := IsName.of_read rfl rfl
  have hprod : IsName "prod" := IsName.of_read rfl rfl
  have hrole : IsName "role" := IsName.of_read rfl rfl
  have hdb : IsName "db" := IsName.of_read rfl rfl
  have hlist : ValueList.Legible ⟨[.identifier "db", .string "a b" .double], [.or]⟩ := by
    refine ⟨?_, ?_⟩
    · simp only [List.mem_cons, List.not_mem_nil, or_false, forall_eq_or_imp, forall_eq]
      exact ⟨hdb.legibleInFilter rfl (by decide), Value.legibleInFilter_string rfl⟩
    · simp only [List.head?_cons, Option.mem_some_iff, forall_eq']
      exact ⟨fun _ => hdb.not_endsInComment rfl, by simp, trivial⟩
  have h : f.Legible :=
    ⟨⟨henv.legibleKey rfl, by simp [Relation.isWord, Condition.tag],
      hprod.legibleInFilter rfl (by decide)⟩, fun _ => hprod.not_endsInComment rfl, trivial, fun _ h => h,
      ⟨⟨⟨hrole.legibleKey rfl, fun _ => hrole.not_endsInComment rfl, hlist⟩, by simp, trivial⟩,
        by simp, trivial⟩⟩
  have hexact : ∀ c ∈ f.conditions, c.Exact := by
    simp [f, conditions, params, Param.conditionsIn, Param.conditions, Condition.Exact,
      FilterValue.values, Condition.tag]
  have hrem : ¬ f.EndsInComment := by simp [EndsInComment, f, params, Param.EndsInComment]
  obtain ⟨g, hg, heq⟩ := readFilter_text f h rfl hrem hexact
  refine ⟨g, hg, heq.mpr ?_⟩
  simp [f, conditions, params, Param.conditionsIn, Param.conditions, Condition.tag,
    FilterValue.Regular, ValueList.Regular]

/-- A comma is printed where a connective is missing, and read as one. -/
theorem readFilter_text_short :
    let f : Filter := ofParam
      (.condition ⟨false, "env", .isIn, .list ⟨[.identifier "a", .identifier "b"], []⟩⟩)
    f.Legible ∧ f.isUnfused ∧ ¬ f.EndsInComment ∧ (∀ c ∈ f.conditions, c.Exact) ∧
      ∃ g, readFilter f.text = .ok g ∧ (g == f) = false := by
  intro f
  have henv : IsName "env" := IsName.of_read rfl rfl
  have ha : IsName "a" := IsName.of_read rfl rfl
  have hb : IsName "b" := IsName.of_read rfl rfl
  have hlist : ValueList.Legible ⟨[.identifier "a", .identifier "b"], []⟩ := by
    refine ⟨?_, ?_⟩
    · simp only [List.mem_cons, List.not_mem_nil, or_false, forall_eq_or_imp, forall_eq]
      exact ⟨ha.legibleInFilter rfl (by decide), hb.legibleInFilter rfl (by decide)⟩
    · simp [ValueList.TailLegible]
  have h : f.Legible :=
    ⟨⟨henv.legibleKey rfl, fun _ => henv.not_endsInComment rfl, hlist⟩, by simp [f, ofParam], trivial⟩
  have hrem : ¬ f.EndsInComment := by
    simp [EndsInComment, f, ofParam, params, Param.EndsInComment, FilterValue.EndsInComment]
  refine ⟨h, rfl, hrem, ?_, f.reread, h.readFilter rfl hrem, by decide⟩
  simp [f, conditions, params, ofParam, Param.conditionsIn, Param.conditions, Condition.Exact,
    FilterValue.values]

end Filter

end MetricLang
