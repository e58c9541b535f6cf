-- SUMMARY: Numbers as they print: what is read prints alike with them, and is equal to itself.
import MetricLang.Proofs.Canonical

/-!
# Rounded numbers

Numbers print with fifteen decimals at most. A number that is read back from its text
prints alike (`Double.text_reread`), and is then read back as it is. So a canonical tree
prints alike with its numbers as they print (`Expression.text_mapNumbers`). Its numbers
are finite, so it is equal to itself too, which a tree with an undefined number is not.
-/

namespace MetricLang

-- ---------------------------------------------------------------------------
-- Numbers
-- ---------------------------------------------------------------------------

namespace Double

variable {d : Double}

/-- The number that is read back prints alike and is finite. -/
theorem reread_spec (h : d.isFinite) : d.reread.text = d.text ∧ d.reread.isFinite := by
  obtain ⟨d', hread, htext, hfinite⟩ := exists_read?_text h
  have heq : d' = d.reread := Option.some.inj (hread.symm.trans (read?_text h))
  exact heq ▸ ⟨htext, hfinite⟩

theorem text_reread (h : d.isFinite) : d.reread.text = d.text := (reread_spec h).1

theorem isFinite_reread (h : d.isFinite) : d.reread.isFinite := (reread_spec h).2

theorem beq_self (h : d.isFinite) : d == d := by
  have hnumber : d.isNaN = false := by
    simp only [isFinite, decide_eq_true_eq] at h
    simp only [isNaN, decide_eq_false_iff_not]
    exact Nat.lt_asymm h
  have hequal : (d == d) = (!d.isNaN && !d.isNaN && ((d.isZero && d.isZero) || d = d)) := rfl
  simp [hequal, hnumber]

/-- A number that was read back once is read back equal. -/
theorem reread_reread (h : d.isFinite) : d.reread.reread == d.reread := by
  have hread := read?_text (isFinite_reread h)
  rw [text_reread h, read?_text h] at hread
  have hsame : d.reread.reread = d.reread := (Option.some.inj hread).symm
  rw [hsame]
  exact beq_self (isFinite_reread h)

end Double

-- ---------------------------------------------------------------------------
-- Rounded numbers print alike
-- ---------------------------------------------------------------------------

namespace Value

variable {v : Value} {vs : List Value}

/-- Is the value no number, or a finite one? -/
def IsFinite : Value → Prop
  | .number d => d.isFinite
  | _ => True

theorem Canonical.isFinite (h : v.Canonical) : v.IsFinite := by
  cases v with
  | number d => exact h
  | _ => trivial

theorem CanonicalInFilter.isFinite (h : v.CanonicalInFilter) : v.IsFinite := by
  cases v with
  | number d => exact h
  | _ => trivial

theorem IsFinite.text_mapNumbers (h : v.IsFinite) : (v.mapNumbers Double.reread).text = v.text := by
  cases v with
  | number d => exact Double.text_reread h
  | _ => rfl

theorem IsFinite.beq_self (h : v.IsFinite) : v == v := by
  cases v with
  | boolean b => exact beq_self_eq_true b
  | identifier name => exact beq_self_eq_true name
  | string s q => exact Bool.and_eq_true_iff.mpr ⟨beq_self_eq_true s, beq_self_eq_true q⟩
  | number d => exact Double.beq_self h
  | wildcard pattern => exact beq_self_eq_true pattern
  | connective c => exact beq_self_eq_true c

/-- Whatever is done with the texts of values, it does not tell rounded numbers. -/
theorem map_mapNumbers (f : String → String) (h : ∀ v ∈ vs, v.IsFinite) :
    (vs.map (mapNumbers Double.reread)).map (fun v => f v.text) = vs.map fun v => f v.text := by
  rw [List.map_map]
  exact List.map_congr_left fun v hv => congrArg f (h v hv).text_mapNumbers

theorem textTail_mapNumbers (h : ∀ v ∈ vs, v.IsFinite) :
    textTail (vs.map (mapNumbers Double.reread)) = textTail vs := by
  rw [textTail_eq, textTail_eq, map_mapNumbers (", " ++ ·) h]

theorem textList_mapNumbers (h : ∀ v ∈ vs, v.IsFinite) :
    textList (vs.map (mapNumbers Double.reread)) = textList vs := by
  cases vs with
  | nil => rfl
  | cons v vs =>
    obtain ⟨hv, hvs⟩ := List.forall_mem_cons.mp h
    rw [List.map_cons, textList_cons, textList_cons, hv.text_mapNumbers, map_mapNumbers ("," ++ ·) hvs]

end Value

/-- Lists are equal to themselves if their members are. -/
theorem list_beq_self [BEq α] {xs : List α} (h : ∀ x ∈ xs, x == x) : xs == xs := by
  induction xs with
  | nil => rfl
  | cons x xs ih =>
    obtain ⟨hx, hxs⟩ := List.forall_mem_cons.mp h
    exact Bool.and_eq_true_iff.mpr ⟨hx, ih hxs⟩

namespace ValueList

theorem textTail_mapNumbers {vs : List Value} (h : ∀ v ∈ vs, v.IsFinite) (cs : List Connective) :
    textTail (vs.map (Value.mapNumbers Double.reread)) cs = textTail vs cs := by
  induction vs generalizing cs with
  | nil => rfl
  | cons v vs ih =>
    obtain ⟨hv, hvs⟩ := List.forall_mem_cons.mp h
    rw [List.map_cons, textTail, textTail, hv.text_mapNumbers, ih hvs]

end ValueList

namespace FilterValue

variable {v : FilterValue}

theorem Canonical.text_mapNumbers (h : v.Canonical) :
    (v.mapNumbers Double.reread).text = v.text := by
  cases v with
  | single v => exact (Value.CanonicalInFilter.isFinite h).text_mapNumbers
  | list l =>
    obtain ⟨items, cs⟩ := l
    have hitems : ∀ v ∈ items, v.IsFinite := fun v hv => (h.items v hv).isFinite
    cases items with
    | nil => rfl
    | cons v vs =>
      obtain ⟨hv, hvs⟩ := List.forall_mem_cons.mp hitems
      simp only [mapNumbers, text, ValueList.text, List.map_cons, hv.text_mapNumbers,
        ValueList.textTail_mapNumbers hvs]

theorem Canonical.beq_self (h : v.Canonical) : v == v := by
  cases v with
  | single v => exact (Value.CanonicalInFilter.isFinite h).beq_self
  | list l =>
    have hitems : l.items == l.items := list_beq_self fun v hv => (h.items v hv).isFinite.beq_self
    exact Bool.and_eq_true_iff.mpr ⟨hitems, beq_self_eq_true l.connectives⟩

end FilterValue

namespace Condition

variable {c : Condition}

theorem Canonical.text_mapNumbers (h : c.Canonical) :
    (c.mapNumbers Double.reread).text = c.text :=
  congrArg (_ ++ c.key ++ c.relation.text ++ ·) h.value.text_mapNumbers

theorem Canonical.beq_self (h : c.Canonical) : c == c :=
  Bool.and_eq_true_iff.mpr ⟨beq_self_eq_true c.negative, Bool.and_eq_true_iff.mpr
    ⟨beq_self_eq_true c.key, Bool.and_eq_true_iff.mpr ⟨beq_self_eq_true c.relation, h.value.beq_self⟩⟩⟩

end Condition

namespace Param

mutual

theorem text_mapNumbers (p : Param) (h : p.Canonical) :
    (p.mapConditions (Condition.mapNumbers Double.reread)).text = p.text := by
  cases p with
  | group ps => simp only [mapConditions, text, textList_mapNumbers ps h]
  | condition c => exact Condition.Canonical.text_mapNumbers h
  | connective _ | star => rfl

theorem textList_mapNumbers (ps : List Param) (h : AllCanonical ps) :
    textList (mapConditionsIn (Condition.mapNumbers Double.reread) ps) = textList ps := by
  cases ps with
  | nil => rfl
  | cons p ps =>
    obtain ⟨hp, hps⟩ := h
    simp only [mapConditionsIn, textList, text_mapNumbers p hp, textList_mapNumbers ps hps]

end

mutual

theorem equal_self (p : Param) (h : p.Canonical) : p.equal p := by
  cases p with
  | group ps => simpa only [equal] using equalList_self ps h
  | condition c => simpa only [equal] using Condition.Canonical.beq_self h
  | connective _ | star => simp [equal]

theorem equalList_self (ps : List Param) (h : AllCanonical ps) : equalList ps ps := by
  cases ps with
  | nil => simp [equalList]
  | cons p ps =>
    obtain ⟨hp, hps⟩ := h
    simp [equalList, equal_self p hp, equalList_self ps hps]

end

end Param

namespace Filter

variable {f : Filter}

theorem Canonical.text_mapNumbers (h : f.Canonical) :
    (f.mapNumbers Double.reread).text = f.text :=
  Param.textList_mapNumbers f.params h

theorem Canonical.beq_self (h : f.Canonical) : f == f := by
  obtain ⟨hfirst, hrest⟩ := h
  have hrest : f.rest == f.rest := Param.beq_eq_equalList _ _ ▸ Param.equalList_self f.rest hrest
  exact Bool.and_eq_true_iff.mpr ⟨Param.equal_self f.first hfirst, hrest⟩

end Filter

namespace FunctionCall

variable {f : FunctionCall}

theorem text_mapNumbers (h : ∀ v ∈ f.args, v.Canonical) :
    (f.mapNumbers Double.reread).text = f.text := by
  simp only [mapNumbers, text, Value.textList_mapNumbers fun v hv => (h v hv).isFinite]

theorem beq_self (h : ∀ v ∈ f.args, v.Canonical) : f == f :=
  Bool.and_eq_true_iff.mpr ⟨beq_self_eq_true f.name, list_beq_self fun v hv => (h v hv).isFinite.beq_self⟩

end FunctionCall

namespace Selection

variable {s : Selection}

theorem textFunctions_mapNumbers {fs : List FunctionCall} (h : ∀ f ∈ fs, ∀ v ∈ f.args, v.Canonical) :
    textFunctions (fs.map (FunctionCall.mapNumbers Double.reread)) = textFunctions fs := by
  induction fs with
  | nil => rfl
  | cons f fs ih =>
    obtain ⟨hf, hfs⟩ := List.forall_mem_cons.mp h
    rw [List.map_cons, textFunctions, textFunctions, FunctionCall.text_mapNumbers hf, ih hfs]

theorem Canonical.text_mapNumbers (h : s.Canonical) :
    (s.mapNumbers Double.reread).text = s.text := by
  simp only [mapNumbers, text, h.filter.text_mapNumbers, textFunctions_mapNumbers h.functions]

theorem Canonical.beq_self (h : s.Canonical) : s == s :=
  have hfunctions := list_beq_self fun f hf => FunctionCall.beq_self (h.functions f hf)
  Bool.and_eq_true_iff.mpr ⟨beq_self_eq_true s.aggregator, Bool.and_eq_true_iff.mpr
    ⟨beq_self_eq_true s.metric, Bool.and_eq_true_iff.mpr ⟨h.filter.beq_self,
      Bool.and_eq_true_iff.mpr ⟨beq_self_eq_true s.grouping, hfunctions⟩⟩⟩⟩

end Selection

namespace Query

variable {q : Query}

theorem Canonical.text_mapNumbers (h : q.Canonical) :
    (q.mapNumbers Double.reread).text = q.text := by
  induction q with
  | selection s => exact Selection.Canonical.text_mapNumbers h
  | call name body args ih =>
    obtain ⟨hbody, hargs⟩ := h
    simp only [mapNumbers, text, ih hbody,
      Value.textTail_mapNumbers fun v hv => (hargs v hv).isFinite]

theorem Canonical.beq_self (h : q.Canonical) : q == q := by
  induction q with
  | selection s => exact Selection.Canonical.beq_self h
  | call name body args ih =>
    obtain ⟨hbody, hargs⟩ := h
    have hargs := list_beq_self fun v hv => (hargs v hv).isFinite.beq_self
    exact Bool.and_eq_true_iff.mpr
      ⟨Bool.and_eq_true_iff.mpr ⟨decide_eq_true rfl, ih hbody⟩, hargs⟩

end Query

-- ---------------------------------------------------------------------------
-- Expressions with rounded numbers
-- ---------------------------------------------------------------------------

mutual

/-- Changes every number, those in queries and arguments included. -/
def Operand.mapNumbers (f : Double → Double) : Operand → Operand
  | .number d => .number (f d)
  | .query q => .query (q.mapNumbers f)
  | .call name body args => .call name (body.mapNumbers f) (args.map (Value.mapNumbers f))
  | .group body => .group (body.mapNumbers f)

def Term.mapNumbers (f : Double → Double) : Term → Term
  | .single v => .single (v.mapNumbers f)
  | .snoc init op last => .snoc (init.mapNumbers f) op (last.mapNumbers f)

def Expression.mapNumbers (f : Double → Double) : Expression → Expression
  | .single t => .single (t.mapNumbers f)
  | .snoc init op last => .snoc (init.mapNumbers f) op (last.mapNumbers f)

end

mutual

theorem Operand.text_mapNumbers (v : Operand) (h : v.Canonical) :
    (v.mapNumbers Double.reread).text = v.text := by
  cases v with
  | number d => exact Double.text_reread h
  | query q => exact Query.Canonical.text_mapNumbers h
  | group body =>
    have htext : ∀ e : Expression, (Operand.group e).text = "(" ++ e.text ++ ")" := fun _ => rfl
    rw [Operand.mapNumbers, htext, htext, Expression.text_mapNumbers body h]
  | call name body args =>
    obtain ⟨hbody, _, hargs⟩ := h
    have htext : ∀ (e : Expression) (vs : List Value), (Operand.call name e vs).text =
        name ++ "(" ++ e.text ++ Value.textTail vs ++ ")" := fun _ _ => rfl
    rw [Operand.mapNumbers, htext, htext, Expression.text_mapNumbers body hbody,
      Value.textTail_mapNumbers fun v hv => (hargs v hv).isFinite]

theorem Term.text_mapNumbers (t : Term) (h : t.Canonical) :
    (t.mapNumbers Double.reread).text = t.text := by
  cases t with
  | single v => exact Operand.text_mapNumbers v h
  | snoc init op last =>
    obtain ⟨hinit, _, hlast⟩ := h
    have htext : ∀ (s : Term) (v : Operand), (Term.snoc s op v).text =
        s.text ++ op.textBetween ++ v.text := fun _ _ => rfl
    rw [Term.mapNumbers, htext, htext, Term.text_mapNumbers init hinit, Operand.text_mapNumbers last hlast]

theorem Expression.text_mapNumbers (e : Expression) (h : e.Canonical) :
    (e.mapNumbers Double.reread).text = e.text := by
  cases e with
  | single t => exact Term.text_mapNumbers t h
  | snoc init op last =>
    obtain ⟨hinit, _, hlast⟩ := h
    have htext : ∀ (d : Expression) (t : Term), (Expression.snoc d op t).text =
        d.text ++ op.textBetween ++ t.text := fun _ _ => rfl
    rw [Expression.mapNumbers, htext, htext, Expression.text_mapNumbers init hinit, Term.text_mapNumbers last hlast]

end

end MetricLang
