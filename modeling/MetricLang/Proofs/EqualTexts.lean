-- SUMMARY: Equal trees print alike.
import MetricLang.Proofs.FilterRoundTrip
import MetricLang.Proofs.Sources

/-!
# Equal trees print alike

Equality compares numbers as numbers, so the two zeros are equal; they print alike, and
nothing else that is equal differs. The texts of equal trees are therefore the same.
-/

namespace MetricLang

theorem forall₂_of_beq [BEq α] {xs ys : List α} (h : xs == ys) :
    List.Forall₂ (fun x y => x == y) xs ys := by
  induction xs generalizing ys with
  | nil =>
    cases ys with
    | nil => exact .nil
    | cons y ys => cases h
  | cons x xs ih =>
    cases ys with
    | nil => cases h
    | cons y ys =>
      obtain ⟨hx, hxs⟩ := Bool.and_eq_true_iff.mp h
      exact .cons hx (ih hxs)

theorem map_eq_of_beq [BEq α] {f : α → β} (hf : ∀ {x y : α}, x == y → f x = f y) {xs ys : List α}
    (h : xs == ys) : xs.map f = ys.map f := by
  have hall := forall₂_of_beq h
  clear h
  induction hall with
  | nil => rfl
  | cons hx _ ih => rw [List.map_cons, List.map_cons, hf hx, ih]

namespace Double

theorem scaled_of_isZero {d : Double} (h : d.isZero) : d.scaled = 0 := by
  have hmagnitude : d.magnitude = 0 := by simpa [isZero] using h
  have hunits : d.units = 0 := by rw [units, hmagnitude]; rfl
  simp [scaled_eq, hunits, roundDiv, one_pos]

theorem isFinite_of_isZero {d : Double} (h : d.isZero) : d.isFinite := by
  have hmagnitude : d.magnitude = 0 := by simpa [isZero] using h
  simp [isFinite, hmagnitude, infinity]

theorem text_eq_of_beq {a b : Double} (h : a == b) : a.text = b.text := by
  have hequal : (!a.isNaN && !b.isNaN && ((a.isZero && b.isZero) || a = b)) = true := h
  simp only [Bool.and_eq_true, Bool.or_eq_true, decide_eq_true_eq] at hequal
  obtain ⟨_, ⟨ha, hb⟩ | rfl⟩ := hequal
  · have hscaled : a.scaled = b.scaled := by rw [scaled_of_isZero ha, scaled_of_isZero hb]
    exact text_eq_of_scaled (isFinite_of_isZero hb) (isFinite_of_isZero ha) (by simp [scaled_of_isZero, ha, hb]) hscaled
  · rfl

theorem isFinite_of_beq {a b : Double} (ha : a.isFinite) (h : a == b) : b.isFinite := by
  have hequal : (!a.isNaN && !b.isNaN && ((a.isZero && b.isZero) || a = b)) = true := h
  simp only [Bool.and_eq_true, Bool.or_eq_true, decide_eq_true_eq] at hequal
  obtain ⟨_, ⟨_, hb⟩ | rfl⟩ := hequal
  · exact isFinite_of_isZero hb
  · exact ha

end Double

namespace Value

/-- Only numbers can be equal and differ. -/
theorem eq_or_number_of_beq {v w : Value} (h : v == w) :
    v = w ∨ ∃ a b : Double, v = .number a ∧ w = .number b ∧ a == b := by
  cases v with
  | boolean a => cases w with
    | boolean b => exact .inl (congrArg boolean (beq_iff_eq.mp h))
    | _ => cases h
  | identifier a => cases w with
    | identifier b => exact .inl (congrArg identifier (beq_iff_eq.mp h))
    | _ => cases h
  | string a q => cases w with
    | string b r =>
      obtain ⟨ha, hq⟩ := Bool.and_eq_true_iff.mp h
      rw [beq_iff_eq.mp ha, beq_iff_eq.mp hq]
      exact .inl rfl
    | _ => cases h
  | number a => cases w with
    | number b => exact .inr ⟨a, b, rfl, rfl, h⟩
    | _ => cases h
  | wildcard a => cases w with
    | wildcard b => exact .inl (congrArg wildcard (beq_iff_eq.mp h))
    | _ => cases h
  | connective a => cases w with
    | connective b => exact .inl (congrArg connective (beq_iff_eq.mp h))
    | _ => cases h

theorem text_eq_of_beq {v w : Value} (h : v == w) : v.text = w.text := by
  obtain rfl | ⟨a, b, rfl, rfl, hab⟩ := eq_or_number_of_beq h
  · rfl
  · exact Double.text_eq_of_beq hab

/-- What is equal to a legible value is legible. -/
theorem Legible.of_beq {v w : Value} (h : v.Legible) (heq : v == w) : w.Legible := by
  obtain rfl | ⟨a, b, rfl, rfl, hab⟩ := eq_or_number_of_beq heq
  · exact h
  · exact Double.isFinite_of_beq h hab

theorem textTail_eq_of_beq {vs ws : List Value} (h : vs == ws) : textTail vs = textTail ws := by
  rw [textTail_eq, textTail_eq, map_eq_of_beq (fun hv => by rw [text_eq_of_beq hv]) h]

theorem textList_eq_of_beq {vs ws : List Value} (h : vs == ws) : textList vs = textList ws := by
  cases forall₂_of_beq h with
  | nil => rfl
  | @cons v w vs ws hv _ =>
    have hvs : vs == ws := (Bool.and_eq_true_iff.mp h).2
    rw [textList_cons, textList_cons, text_eq_of_beq hv,
      map_eq_of_beq (fun hv => by rw [text_eq_of_beq hv]) hvs]

end Value

namespace ValueList

theorem textTail_eq_of_beq {vs ws : List Value} (h : vs == ws) (cs : List Connective) :
    textTail vs cs = textTail ws cs := by
  have hall := forall₂_of_beq h
  clear h
  induction hall generalizing cs with
  | nil => rfl
  | cons hv _ ih => rw [textTail, textTail, Value.text_eq_of_beq hv, ih]

theorem text_eq_of_beq {l m : ValueList} (h : l == m) : l.text = m.text := by
  obtain ⟨items, cs⟩ := l
  obtain ⟨items', ds⟩ := m
  obtain ⟨hitems, hcs⟩ := Bool.and_eq_true_iff.mp h
  obtain rfl := beq_iff_eq.mp hcs
  cases forall₂_of_beq hitems with
  | nil => rfl
  | @cons v w vs ws hv _ =>
    have hvs : vs == ws := (Bool.and_eq_true_iff.mp hitems).2
    simp only [text, Value.text_eq_of_beq hv, textTail_eq_of_beq hvs]

end ValueList

theorem FilterValue.text_eq_of_beq {v w : FilterValue} (h : v == w) : v.text = w.text := by
  cases v with
  | single v => cases w with
    | single w => exact Value.text_eq_of_beq h
    | list _ => cases h
  | list l => cases w with
    | single _ => cases h
    | list m => exact ValueList.text_eq_of_beq h

theorem Condition.text_eq_of_beq {c d : Condition} (h : c == d) : c.text = d.text := by
  obtain ⟨negative, key, relation, value⟩ := c
  obtain ⟨negative', key', relation', value'⟩ := d
  obtain ⟨hnegative, h⟩ := Bool.and_eq_true_iff.mp h
  obtain ⟨hkey, h⟩ := Bool.and_eq_true_iff.mp h
  obtain ⟨hrelation, hvalue⟩ := Bool.and_eq_true_iff.mp h
  obtain rfl := beq_iff_eq.mp hnegative
  obtain rfl := beq_iff_eq.mp hkey
  obtain rfl := beq_iff_eq.mp hrelation
  simp only [text, FilterValue.text_eq_of_beq hvalue]

namespace Param

mutual

theorem text_eq_of_equal (p q : Param) (h : p.equal q) : p.text = q.text := by
  cases p with
  | group ps => cases q with
    | group qs =>
      simp only [equal] at h
      simp only [text, textList_eq_of_equalList ps qs h]
    | _ => simp [equal] at h
  | connective c => cases q with
    | connective d =>
      simp only [equal, decide_eq_true_eq] at h
      rw [h]
    | _ => simp [equal] at h
  | condition c => cases q with
    | condition d =>
      simp only [equal] at h
      exact Condition.text_eq_of_beq h
    | _ => simp [equal] at h
  | star => cases q with
    | star => rfl
    | _ => simp [equal] at h

theorem textList_eq_of_equalList (ps qs : List Param) (h : equalList ps qs) :
    textList ps = textList qs := by
  cases ps with
  | nil => cases qs with
    | nil => rfl
    | cons _ _ => simp [equalList] at h
  | cons p ps => cases qs with
    | nil => simp [equalList] at h
    | cons q qs =>
      simp only [equalList, Bool.and_eq_true] at h
      obtain ⟨hp, hps⟩ := h
      simp only [textList, text_eq_of_equal p q hp, textList_eq_of_equalList ps qs hps]

end

end Param

theorem Filter.equalList_params {f g : Filter} (h : f == g) : Param.equalList f.params g.params := by
  obtain ⟨hfirst, hrest⟩ := Bool.and_eq_true_iff.mp h
  rw [Param.beq_eq_equalList] at hrest
  exact Bool.and_eq_true_iff.mpr ⟨hfirst, hrest⟩

theorem Filter.text_eq_of_beq {f g : Filter} (h : f == g) : f.text = g.text :=
  Param.textList_eq_of_equalList _ _ (equalList_params h)

theorem FunctionCall.text_eq_of_beq {f g : FunctionCall} (h : f == g) : f.text = g.text := by
  obtain ⟨hname, hargs⟩ := Bool.and_eq_true_iff.mp h
  rw [text, text, beq_iff_eq.mp hname, Value.textList_eq_of_beq hargs]

namespace Selection

theorem textFunctions_eq_of_beq {fs gs : List FunctionCall} (h : fs == gs) :
    textFunctions fs = textFunctions gs := by
  have hall := forall₂_of_beq h
  clear h
  induction hall with
  | nil => rfl
  | cons hf _ ih => rw [textFunctions, textFunctions, FunctionCall.text_eq_of_beq hf, ih]

theorem text_eq_of_beq {s t : Selection} (h : s == t) : s.text = t.text := by
  obtain ⟨a, metric, filter, grouping, functions⟩ := s
  obtain ⟨b, metric', filter', grouping', functions'⟩ := t
  obtain ⟨ha, h⟩ := Bool.and_eq_true_iff.mp h
  obtain ⟨hmetric, h⟩ := Bool.and_eq_true_iff.mp h
  obtain ⟨hfilter, h⟩ := Bool.and_eq_true_iff.mp h
  obtain ⟨hgrouping, hfunctions⟩ := Bool.and_eq_true_iff.mp h
  obtain rfl := beq_iff_eq.mp ha
  obtain rfl := beq_iff_eq.mp hmetric
  obtain rfl := beq_iff_eq.mp hgrouping
  simp only [text, Filter.text_eq_of_beq hfilter, textFunctions_eq_of_beq hfunctions]

end Selection

/-- Equal queries print alike. -/
theorem Query.text_eq_of_beq {q r : Query} (h : q == r) : q.text = r.text := by
  induction q generalizing r with
  | selection s => cases r with
    | selection t => exact Selection.text_eq_of_beq h
    | call _ _ _ => cases h
  | call name body args ih => cases r with
    | selection _ => cases h
    | call name' body' args' =>
      obtain ⟨h, hargs⟩ := Bool.and_eq_true_iff.mp h
      obtain ⟨hname, hbody⟩ := Bool.and_eq_true_iff.mp h
      rw [text, text, of_decide_eq_true hname, ih hbody, Value.textTail_eq_of_beq hargs]

mutual

theorem Operand.text_eq_of_equal : ∀ (v w : Operand), v.equal w → v.text = w.text
  | .number _, .number _, h => Double.text_eq_of_beq h
  | .query _, .query _, h => Query.text_eq_of_beq h
  | .call name body args, .call name' body' args', h => by
    obtain ⟨h, hargs⟩ := Bool.and_eq_true_iff.mp h
    obtain ⟨hname, hbody⟩ := Bool.and_eq_true_iff.mp h
    have htext : ∀ name e vs, (Operand.call name e vs).text =
        name ++ "(" ++ e.text ++ Value.textTail vs ++ ")" := fun _ _ _ => rfl
    rw [htext, htext, of_decide_eq_true hname, Expression.text_eq_of_equal body body' hbody,
      Value.textTail_eq_of_beq hargs]
  | .group body, .group body', h =>
    congrArg ("(" ++ · ++ ")") (Expression.text_eq_of_equal body body' h)

theorem Term.text_eq_of_equal : ∀ (s t : Term), s.equal t → s.text = t.text
  | .single v, .single w, h => Operand.text_eq_of_equal v w h
  | .snoc s op v, .snoc t op' w, h => by
    obtain ⟨h, hlast⟩ := Bool.and_eq_true_iff.mp h
    obtain ⟨hinit, hop⟩ := Bool.and_eq_true_iff.mp h
    have htext : ∀ s op v, (Term.snoc s op v).text = s.text ++ op.textBetween ++ v.text :=
      fun _ _ _ => rfl
    rw [htext, htext, of_decide_eq_true hop, Term.text_eq_of_equal s t hinit,
      Operand.text_eq_of_equal v w hlast]

/-- Equal expressions print alike. -/
theorem Expression.text_eq_of_equal : ∀ (d e : Expression), d.equal e → d.text = e.text
  | .single s, .single t, h => Term.text_eq_of_equal s t h
  | .snoc d op s, .snoc e op' t, h => by
    obtain ⟨h, hlast⟩ := Bool.and_eq_true_iff.mp h
    obtain ⟨hinit, hop⟩ := Bool.and_eq_true_iff.mp h
    have htext : ∀ e op t, (Expression.snoc e op t).text = e.text ++ op.textBetween ++ t.text :=
      fun _ _ _ => rfl
    rw [htext, htext, of_decide_eq_true hop, Expression.text_eq_of_equal d e hinit,
      Term.text_eq_of_equal s t hlast]

end

end MetricLang
