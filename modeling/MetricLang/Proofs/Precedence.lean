-- SUMMARY: An expression built operand by operand has every operator where it binds.
import Mathlib.Data.List.SplitBy
import MetricLang.Proofs.Canonical

/-!
# Precedence

`Expression.build` starts with one operand and appends operators and operands.
`Expression.flatten` reads an expression back from left to right: it forgets where the
terms begin, and does not look into the operands. On expressions whose operators stand
where they bind the two are inverse (`flatten_build`, `build_flatten`), so nothing is lost
and there is one such expression for each row of operands. Its terms are then the runs of
operands that multiplicative operators join (`IsSum.rows_terms`).
-/

namespace MetricLang

-- ---------------------------------------------------------------------------
-- Reading a tree from left to right
-- ---------------------------------------------------------------------------

/-- The first operand of a term, and the operators and operands after it. -/
def Term.flatten : Term → Operand × List (Operator × Operand)
  | .single v => (v, [])
  | .snoc init op last => (init.flatten.1, init.flatten.2 ++ [(op, last)])

/-- The first operand of an expression, and the operators and operands after it. -/
def Expression.flatten : Expression → Operand × List (Operator × Operand)
  | .single t => t.flatten
  | .snoc init op last =>
    (init.flatten.1, init.flatten.2 ++ (op, last.flatten.1) :: last.flatten.2)

/-- Do all operators of a term multiply or divide? -/
def Term.IsProduct : Term → Prop
  | .single _ => True
  | .snoc init op _ => init.IsProduct ∧ (op = .mul ∨ op = .div)

/-- Do the operators between the terms add or subtract, and those in the terms multiply
    or divide? -/
def Expression.IsSum : Expression → Prop
  | .single t => t.IsProduct
  | .snoc init op last => init.IsSum ∧ (op = .add ∨ op = .sub) ∧ last.IsProduct

/-- The expression with operators and operands appended one after the other. -/
def Expression.appendAll (e : Expression) (steps : List (Operator × Operand)) : Expression :=
  steps.foldl (fun e step => e.append step.1 step.2) e

/-- The expression begun by an operand. -/
def Expression.build (v : Operand) (steps : List (Operator × Operand)) : Expression :=
  (ofOperand v).appendAll steps

-- ---------------------------------------------------------------------------
-- One operand more
-- ---------------------------------------------------------------------------

theorem Operator.binds_or_separates (op : Operator) :
    (op = .mul ∨ op = .div) ∨ (op = .add ∨ op = .sub) := by
  cases op <;> decide

namespace Expression

theorem append_single {op : Operator} (hop : op = .mul ∨ op = .div) (t : Term) (v : Operand) :
    (single t).append op v = single (t.snoc op v) := by
  simp only [append, op.isMultiplicative_iff.mpr hop, if_true]

theorem append_snoc {op : Operator} (hop : op = .mul ∨ op = .div) (init : Expression)
    (o : Operator) (t : Term) (v : Operand) :
    (init.snoc o t).append op v = init.snoc o (t.snoc op v) := by
  simp only [append, op.isMultiplicative_iff.mpr hop, if_true]

theorem append_of_additive {op : Operator} (hop : op = .add ∨ op = .sub) (e : Expression)
    (v : Operand) : e.append op v = e.snoc op (.single v) := by
  simp only [append, op.not_isMultiplicative_iff.mpr hop]
  rfl

variable {e : Expression} {op : Operator}

theorem flatten_append (e : Expression) (op : Operator) (v : Operand) :
    (e.append op v).flatten = (e.flatten.1, e.flatten.2 ++ [(op, v)]) := by
  rcases op.binds_or_separates with hop | hop
  · cases e with
    | single t => simp only [append_single hop, flatten, Term.flatten]
    | snoc init o t =>
      simp only [append_snoc hop, flatten, Term.flatten, List.append_assoc, List.cons_append]
  · simp only [append_of_additive hop, flatten, Term.flatten]

theorem IsSum.append (he : e.IsSum) (op : Operator) (v : Operand) : (e.append op v).IsSum := by
  rcases op.binds_or_separates with hop | hop
  · cases e with
    | single t =>
      rw [append_single hop]
      exact ⟨he, hop⟩
    | snoc init o t =>
      rcases he with ⟨hinit, ho, ht⟩
      rw [append_snoc hop]
      exact ⟨hinit, ho, ht, hop⟩
  · rw [append_of_additive hop]
    exact ⟨he, hop, trivial⟩

-- ---------------------------------------------------------------------------
-- A whole row of operands
-- ---------------------------------------------------------------------------

@[simp] theorem appendAll_nil (e : Expression) : e.appendAll [] = e := rfl

@[simp] theorem appendAll_cons (e : Expression) (step : Operator × Operand)
    (steps : List (Operator × Operand)) :
    e.appendAll (step :: steps) = (e.append step.1 step.2).appendAll steps := rfl

theorem appendAll_append (e : Expression) (steps steps' : List (Operator × Operand)) :
    e.appendAll (steps ++ steps') = (e.appendAll steps).appendAll steps' :=
  List.foldl_append

theorem flatten_appendAll (e : Expression) (steps : List (Operator × Operand)) :
    (e.appendAll steps).flatten = (e.flatten.1, e.flatten.2 ++ steps) := by
  induction steps generalizing e with
  | nil => simp only [appendAll_nil, List.append_nil]
  | cons step steps ih =>
    simp only [appendAll_cons, ih, flatten_append, List.append_assoc, List.cons_append,
      List.nil_append]

theorem IsSum.appendAll (he : e.IsSum) (steps : List (Operator × Operand)) :
    (e.appendAll steps).IsSum := by
  induction steps generalizing e with
  | nil => exact he
  | cons step steps ih => exact ih (he.append step.1 step.2)

theorem flatten_build (v : Operand) (steps : List (Operator × Operand)) :
    (build v steps).flatten = (v, steps) :=
  flatten_appendAll (ofOperand v) steps

theorem isSum_build (v : Operand) (steps : List (Operator × Operand)) : (build v steps).IsSum :=
  IsSum.appendAll (e := ofOperand v) trivial steps

-- ---------------------------------------------------------------------------
-- The tree from its row of operands
-- ---------------------------------------------------------------------------

/-- The operands of a product come together in one term. -/
theorem build_flatten_product {t : Term} (ht : t.IsProduct) :
    build t.flatten.1 t.flatten.2 = .single t := by
  induction t using Term.flatten.induct with
  | case1 v => rfl
  | case2 init op last ih =>
    rcases ht with ⟨hinit, hop⟩
    calc build init.flatten.1 (init.flatten.2 ++ [(op, last)])
      _ = (build init.flatten.1 init.flatten.2).append op last := appendAll_append _ _ _
      _ = (single init).append op last := by rw [ih hinit]
      _ = single (init.snoc op last) := append_single hop init last

/-- Behind an operator that adds or subtracts they come together in a new last term. -/
theorem appendAll_product {t : Term} (ht : t.IsProduct) (hop : op = .add ∨ op = .sub)
    (e : Expression) : e.appendAll ((op, t.flatten.1) :: t.flatten.2) = e.snoc op t := by
  induction t using Term.flatten.induct with
  | case1 v => exact append_of_additive hop e v
  | case2 init o last ih =>
    rcases ht with ⟨hinit, ho⟩
    calc e.appendAll ((op, init.flatten.1) :: init.flatten.2 ++ [(o, last)])
      _ = (e.appendAll ((op, init.flatten.1) :: init.flatten.2)).append o last :=
        appendAll_append _ _ _
      _ = (e.snoc op init).append o last := by rw [ih hinit]
      _ = e.snoc op (init.snoc o last) := append_snoc ho e op init last

/-- An expression whose operators stand where they bind is built again from its operands. -/
theorem build_flatten (he : e.IsSum) : build e.flatten.1 e.flatten.2 = e := by
  induction e using flatten.induct with
  | case1 t => exact build_flatten_product he
  | case2 init op last ih =>
    rcases he with ⟨hinit, hop, hlast⟩
    calc build init.flatten.1 (init.flatten.2 ++ (op, last.flatten.1) :: last.flatten.2)
      _ = (build init.flatten.1 init.flatten.2).appendAll
            ((op, last.flatten.1) :: last.flatten.2) := appendAll_append _ _ _
      _ = init.appendAll ((op, last.flatten.1) :: last.flatten.2) := by rw [ih hinit]
      _ = init.snoc op last := appendAll_product hlast hop init

end Expression

-- ---------------------------------------------------------------------------
-- Terms as runs of operands
-- ---------------------------------------------------------------------------

/-- An operand with the operator in front of it, if there is one. -/
abbrev Placed := Option Operator × Operand

/-- Is the second operand joined to the first by its operator, in one term? -/
def Placed.joins (_ p : Placed) : Bool := p.1 = some .mul ∨ p.1 = some .div

/-- The operands of a term that `lead` stands in front of. -/
def Term.row (lead : Option Operator) (t : Term) : List Placed :=
  (lead, t.flatten.1) :: t.flatten.2.map (Prod.map some id)

namespace Expression

/-- All operands of an expression. -/
def row (e : Expression) : List Placed :=
  (none, e.flatten.1) :: e.flatten.2.map (Prod.map some id)

/-- The terms of an expression, each with the operator in front of it. -/
def terms : Expression → List (Option Operator × Term)
  | .single t => [(none, t)]
  | .snoc init op last => init.terms ++ [(some op, last)]

theorem row_snoc (init : Expression) (op : Operator) (last : Term) :
    (init.snoc op last).row = init.row ++ last.row (some op) := by
  simp only [row, Term.row, flatten, List.map_append, List.map_cons, List.cons_append]
  rfl

end Expression

theorem Term.IsProduct.of_mem {t : Term} (ht : t.IsProduct) :
    ∀ step ∈ t.flatten.2, step.1 = .mul ∨ step.1 = .div := by
  induction t using Term.flatten.induct with
  | case1 v => simp [flatten]
  | case2 init op last ih =>
    rcases ht with ⟨hinit, hop⟩
    intro step hstep
    rcases List.mem_append.mp hstep with hstep | hstep
    · exact ih hinit step hstep
    · cases List.mem_singleton.mp hstep
      exact hop

/-- The operands of a product are one run. -/
theorem Term.IsProduct.splitBy_row {t : Term} (ht : t.IsProduct) (lead : Option Operator) :
    (t.row lead).splitBy Placed.joins = [t.row lead] := by
  apply List.splitBy_of_isChain (List.cons_ne_nil _ _)
  apply List.Pairwise.isChain
  have hjoins : ∀ p ∈ t.flatten.2.map (Prod.map some id), ∀ q, Placed.joins q p = true := by
    intro p hp q
    rcases List.mem_map.mp hp with ⟨step, hstep, rfl⟩
    simpa [Placed.joins] using ht.of_mem step hstep
  exact List.pairwise_cons.mpr
    ⟨fun p hp => hjoins p hp _, List.pairwise_of_forall_mem_list fun q _ p hp => hjoins p hp q⟩

namespace Expression

variable {e : Expression}

/-- The terms are the longest runs of operands that multiplicative operators join. -/
theorem IsSum.rows_terms (he : e.IsSum) :
    e.terms.map (fun p => p.2.row p.1) = e.row.splitBy Placed.joins := by
  induction e using flatten.induct with
  | case1 t => exact (Term.IsProduct.splitBy_row he none).symm
  | case2 init op last ih =>
    rcases he with ⟨hinit, hop, hlast⟩
    -- a run ends in front of an operator that adds or subtracts
    have hends : ∀ p ∈ init.row.getLast?, Placed.joins p (some op, last.flatten.1) = false := by
      rcases hop with rfl | rfl <;> exact fun _ _ => rfl
    calc (init.terms ++ [(some op, last)]).map (fun p => p.2.row p.1)
      _ = init.row.splitBy Placed.joins ++ [last.row (some op)] := by
        rw [List.map_append, ih hinit, List.map_singleton]
      _ = init.row.splitBy Placed.joins ++ (last.row (some op)).splitBy Placed.joins := by
        rw [hlast.splitBy_row]
      _ = (init.row ++ last.row (some op)).splitBy Placed.joins :=
        (List.splitBy_append_cons _ hends).symm
      _ = (init.snoc op last).row.splitBy Placed.joins := by rw [row_snoc]

theorem length_terms (e : Expression) : e.terms.length = e.termCount := by
  induction e using terms.induct with
  | case1 t => rfl
  | case2 init op last ih =>
    simp only [terms, termCount, List.length_append, ih, List.length_singleton]

/-- There is one term more than there are operators that add or subtract. -/
theorem IsSum.termCount_eq (he : e.IsSum) :
    e.termCount = e.flatten.2.countP (fun step => step.1 = .add ∨ step.1 = .sub) + 1 := by
  have hproduct : ∀ t : Term, t.IsProduct →
      t.flatten.2.countP (fun step => step.1 = .add ∨ step.1 = .sub) = 0 := by
    intro t ht
    apply List.countP_eq_zero.mpr
    intro step hstep
    rcases ht.of_mem step hstep with hop | hop <;> simp [hop]
  induction e using flatten.induct with
  | case1 t => simp only [termCount, flatten, hproduct t he]
  | case2 init op last ih =>
    rcases he with ⟨hinit, hop, hlast⟩
    simp only [termCount, flatten, List.countP_append, List.countP_cons, hproduct last hlast,
      ih hinit, hop, decide_true, if_true]

/-- Building puts every operator where it binds and keeps every operand in its place. What
    is built from a row of operands is the only such expression with that row, and its
    terms are the runs of operands that multiplicative operators join. -/
theorem build_respects_precedence :
    (∀ (v : Operand) (steps : List (Operator × Operand)),
      (build v steps).IsSum ∧ (build v steps).flatten = (v, steps)) ∧
    (∀ e : Expression, e.IsSum → build e.flatten.1 e.flatten.2 = e) ∧
    (∀ (v : Operand) (steps : List (Operator × Operand)),
      (build v steps).terms.map (fun p => p.2.row p.1)
          = ((none, v) :: steps.map (Prod.map some id)).splitBy Placed.joins ∧
        (build v steps).terms.length
          = steps.countP (fun step => step.1 = .add ∨ step.1 = .sub) + 1) := by
  refine ⟨fun v steps => ⟨isSum_build v steps, flatten_build v steps⟩,
    fun e he => build_flatten he, fun v steps => ⟨?_, ?_⟩⟩
  · have := (isSum_build v steps).rows_terms
    rwa [row, flatten_build] at this
  · rw [length_terms, (isSum_build v steps).termCount_eq, flatten_build]

/-- The expression `1 * 2 - 3 / 4` is built again from its four numbers. -/
theorem build_respects_precedence_difference :
    let number (bits : Nat) : Operand := .number (.ofBits bits)
    let e := Expression.snoc
      (.single (.snoc (.single (number 0x3ff0000000000000)) .mul (number 0x4000000000000000))) .sub
      (.snoc (.single (number 0x4008000000000000)) .div (number 0x4010000000000000))
    e.IsSum ∧ build e.flatten.1 e.flatten.2 = e := by
  intro number e
  have he : e.IsSum := ⟨⟨trivial, .inl rfl⟩, .inr rfl, trivial, .inr rfl⟩
  exact ⟨he, build_respects_precedence.2.1 e he⟩

end Expression

end MetricLang
