-- SUMMARY: A formula stands for its expression: variables tell queries apart, and putting them back prints it.
import MetricLang.Expression.Formula
import Mathlib.Data.List.Basic
import Mathlib.Data.List.Nodup

/-!
# Formulas stand for expressions

An expression prints as a row of parts, each some text of its own or a query
(`Expression.parts`): printing with something in place of each query goes through the
same row as collecting the queries. No two variables have one name and each distinct
text has one variable, so that looking up the variable of a query finds its text
(`Formula.lookup_nameTexts`).
-/

namespace MetricLang

-- ---------------------------------------------------------------------------
-- Names of variables
-- ---------------------------------------------------------------------------

namespace Formula

/-- The letters from a to z, by their place. -/
def letter (n : Nat) : Char := Char.ofNat ('a'.toNat + n)

theorem letter_inj : ∀ m < 26, ∀ n < 26, letter m = letter n → m = n := by decide +kernel

theorem variableLetters_succ (n : Nat) :
    variableLetters (n + 1) = variableLetters (n / 26) ++ [letter (n % 26)] := by
  rw [variableLetters, letter]

/-- Numerals without a digit zero: different numbers have different ones. -/
theorem variableLetters_injective {m n : Nat} (h : variableLetters m = variableLetters n) : m = n := by
  induction m using Nat.strongRecOn generalizing n with
  | ind m ih =>
    cases m with
    | zero =>
      cases n with
      | zero => rfl
      | succ n => simp [variableLetters] at h
    | succ m =>
      cases n with
      | zero => simp [variableLetters] at h
      | succ n =>
        rw [variableLetters_succ, variableLetters_succ] at h
        obtain ⟨hinit, hlast⟩ := List.append_inj' h rfl
        have hdiv : m / 26 = n / 26 := ih _ (by omega) hinit
        have hmod : m % 26 = n % 26 :=
          letter_inj _ (Nat.mod_lt _ (by decide)) _ (Nat.mod_lt _ (by decide)) (List.head_eq_of_cons_eq hlast)
        omega

theorem variableName_injective : Function.Injective variableName := fun _ _ h =>
  Nat.succ.inj (variableLetters_injective (String.ofList_injective h))

-- ---------------------------------------------------------------------------
-- Texts with names
-- ---------------------------------------------------------------------------

/-- Names texts by their place in a list that begins at `k`. -/
def nameTextsFrom (k : Nat) (texts : List String) : List (String × String) :=
  (texts.zipIdx k).map fun (text, i) => (variableName i, text)

theorem nameTexts_eq (texts : List String) : nameTexts texts = nameTextsFrom 0 texts := rfl

@[simp] theorem nameTextsFrom_cons (k : Nat) (text : String) (texts : List String) :
    nameTextsFrom k (text :: texts) = (variableName k, text) :: nameTextsFrom (k + 1) texts := rfl

/-- A variable stands for the text in its place, and no other variable has its name. -/
theorem lookup_nameTextsFrom (k i : Nat) (texts : List String) :
    (nameTextsFrom k texts).lookup (variableName (k + i)) = texts[i]? := by
  induction texts generalizing k i with
  | nil => rfl
  | cons text texts ih =>
    rw [nameTextsFrom_cons, List.lookup_cons]
    cases i with
    | zero => simp
    | succ i =>
      have hne : (variableName (k + (i + 1)) == variableName k) = false :=
        beq_false_of_ne fun h => by have := variableName_injective h; omega
      rw [hne, List.getElem?_cons_succ, ← ih (k + 1) i, Nat.add_right_comm, Nat.add_assoc]

theorem lookup_nameTexts (i : Nat) (texts : List String) :
    (nameTexts texts).lookup (variableName i) = texts[i]? := by
  simpa [nameTexts_eq] using lookup_nameTextsFrom 0 i texts

theorem variableOf_nameTextsFrom {texts : List String} {text : String} (h : text ∈ texts) (k : Nat) :
    variableOf (nameTextsFrom k texts) text = variableName (k + texts.idxOf text) := by
  induction texts generalizing k with
  | nil => cases h
  | cons t texts ih =>
    by_cases heq : t = text
    · simp [variableOf, heq]
    · have hmem : text ∈ texts := (List.mem_cons.mp h).resolve_left (Ne.symm heq)
      have := ih hmem (k + 1)
      simp only [variableOf] at this
      simp [variableOf, heq, this, Nat.add_assoc, Nat.add_comm 1]

/-- A text that has a name is never left as it is. -/
theorem variableOf_nameTexts {texts : List String} {text : String} (h : text ∈ texts) :
    variableOf (nameTexts texts) text = variableName (texts.idxOf text) := by
  simpa [nameTexts_eq] using variableOf_nameTextsFrom h 0

/-- The names are those of the places in the list, and so all different. -/
theorem map_fst_nameTexts (texts : List String) :
    (nameTexts texts).map Prod.fst = (List.range texts.length).map variableName := by
  have hplaces : texts.zipIdx.map Prod.snd = List.range texts.length := by
    rw [List.zipIdx_map_snd, List.range_eq_range']
  rw [nameTexts, List.map_map, ← hplaces, List.map_map]
  rfl

theorem map_snd_nameTexts (texts : List String) : (nameTexts texts).map Prod.snd = texts := by
  simp [nameTexts, List.map_map, Function.comp_def]

theorem nodup_names (n : Nat) : ((List.range n).map variableName).Nodup :=
  List.nodup_range.map variableName_injective

end Formula

-- ---------------------------------------------------------------------------
-- Parts
-- ---------------------------------------------------------------------------

mutual

/-- What an operand prints one after the other: text of its own, or a query. -/
def Operand.parts : Operand → List (String ⊕ Query)
  | .number d => [.inl d.text]
  | .query q => [.inr q]
  | .call name body args => .inl (name ++ "(") :: (body.parts ++ [.inl (Value.textTail args ++ ")")])
  | .group body => .inl "(" :: (body.parts ++ [.inl ")"])

def Term.parts : Term → List (String ⊕ Query)
  | .single v => v.parts
  | .snoc init op last => init.parts ++ .inl op.textBetween :: last.parts

def Expression.parts : Expression → List (String ⊕ Query)
  | .single t => t.parts
  | .snoc init op last => init.parts ++ .inl op.textBetween :: last.parts

end

/-- The text of a row of parts, with each query printed by `leaf`. -/
def printParts (leaf : Query → String) (parts : List (String ⊕ Query)) : String :=
  String.join (parts.map (Sum.elim id leaf))

/-- The queries in a row of parts. -/
def queriesAmong (parts : List (String ⊕ Query)) : List Query := parts.filterMap Sum.getRight?

@[simp] theorem queriesAmong_nil : queriesAmong [] = [] := rfl

@[simp] theorem queriesAmong_text (s : String) (parts : List (String ⊕ Query)) :
    queriesAmong (.inl s :: parts) = queriesAmong parts := rfl

@[simp] theorem queriesAmong_query (q : Query) (parts : List (String ⊕ Query)) :
    queriesAmong (.inr q :: parts) = q :: queriesAmong parts := rfl

@[simp] theorem queriesAmong_append (parts more : List (String ⊕ Query)) :
    queriesAmong (parts ++ more) = queriesAmong parts ++ queriesAmong more :=
  List.filterMap_append

section

variable (leaf : Query → String)

@[simp] theorem printParts_nil : printParts leaf [] = "" := rfl

@[simp] theorem printParts_text (s : String) (parts : List (String ⊕ Query)) :
    printParts leaf (.inl s :: parts) = s ++ printParts leaf parts := String.join_cons

@[simp] theorem printParts_query (q : Query) (parts : List (String ⊕ Query)) :
    printParts leaf (.inr q :: parts) = leaf q ++ printParts leaf parts := String.join_cons

@[simp] theorem printParts_append (parts more : List (String ⊕ Query)) :
    printParts leaf (parts ++ more) = printParts leaf parts ++ printParts leaf more := by
  rw [printParts, List.map_append, String.join_append]
  rfl

mutual

theorem Operand.textWith_eq (v : Operand) : v.textWith leaf = printParts leaf v.parts := by
  cases v with
  | number _ | query _ => simp [Operand.textWith, Operand.parts]
  | call _ body _ | group body =>
    simp [Operand.textWith, Operand.parts, Expression.textWith_eq body, String.append_assoc]

theorem Term.textWith_eq (t : Term) : t.textWith leaf = printParts leaf t.parts := by
  cases t with
  | single v => exact Operand.textWith_eq v
  | snoc init op last =>
    simp [Term.textWith, Term.parts, Term.textWith_eq init, Operand.textWith_eq last, String.append_assoc]

theorem Expression.textWith_eq (e : Expression) : e.textWith leaf = printParts leaf e.parts := by
  cases e with
  | single t => exact Term.textWith_eq t
  | snoc init op last =>
    simp [Expression.textWith, Expression.parts, Expression.textWith_eq init, Term.textWith_eq last, String.append_assoc]

end

end

mutual

theorem Operand.leaves_eq (v : Operand) : v.leaves = queriesAmong v.parts := by
  cases v with
  | number _ | query _ => rfl
  | call _ body _ | group body => simp [Operand.leaves, Operand.parts, Expression.leaves_eq body]

theorem Term.leaves_eq (t : Term) : t.leaves = queriesAmong t.parts := by
  cases t with
  | single v => exact Operand.leaves_eq v
  | snoc init _ last => simp [Term.leaves, Term.parts, Term.leaves_eq init, Operand.leaves_eq last]

theorem Expression.leaves_eq (e : Expression) : e.leaves = queriesAmong e.parts := by
  cases e with
  | single t => exact Term.leaves_eq t
  | snoc init _ last => simp [Expression.leaves, Expression.parts, Expression.leaves_eq init, Term.leaves_eq last]

end

theorem printParts_congr {leaf leaf' : Query → String} {parts : List (String ⊕ Query)}
    (h : ∀ q ∈ queriesAmong parts, leaf q = leaf' q) :
    printParts leaf parts = printParts leaf' parts := by
  induction parts with
  | nil => rfl
  | cons part parts ih =>
    cases part with
    | inl s => simp [ih (by simpa using h)]
    | inr q =>
      rw [queriesAmong_query, List.forall_mem_cons] at h
      simp [h.1, ih h.2]

/-- What is printed depends on how the queries in an expression print, and on no other. -/
theorem Expression.textWith_congr {leaf leaf' : Query → String} {e : Expression}
    (h : ∀ q ∈ e.leaves, leaf q = leaf' q) : e.textWith leaf = e.textWith leaf' := by
  rw [textWith_eq, textWith_eq]
  exact printParts_congr (leaves_eq e ▸ h)

-- ---------------------------------------------------------------------------
-- Formulas
-- ---------------------------------------------------------------------------

theorem nodup_eraseDups (xs : List String) : xs.eraseDups.Nodup := by
  induction h : xs.length using Nat.strongRecOn generalizing xs with
  | ind n ih =>
    cases xs with
    | nil => simp
    | cons x xs =>
      rw [List.eraseDups_cons, List.nodup_cons]
      have hlength : (xs.filter (!· == x)).length < n := by
        have := List.length_filter_le (!· == x) xs
        simp only [List.length_cons] at h
        omega
      exact ⟨by simp [List.mem_eraseDups], ih _ hlength _ rfl⟩

namespace Expression

/-- The variable that a formula has in place of a query with the given text. -/
def variableFor (e : Expression) (text : String) : String :=
  Formula.variableName (e.queries.idxOf text)

variable {e : Expression} {text : String}

theorem mem_queries : text ∈ e.queries ↔ ∃ q ∈ e.leaves, q.text = text := by
  simp [queries, List.mem_eraseDups]

theorem variableOf_bindings (h : text ∈ e.queries) :
    Formula.variableOf e.formula.bindings text = e.variableFor text :=
  Formula.variableOf_nameTexts h

theorem lookup_variableFor (h : text ∈ e.queries) :
    e.formula.bindings.lookup (e.variableFor text) = some text := by
  rw [variableFor, formula, Formula.lookup_nameTexts,
    List.getElem?_eq_getElem (List.idxOf_lt_length_of_mem h), List.getElem_idxOf]

theorem text_formula (e : Expression) : e.formula.text = e.textWith fun q => e.variableFor q.text :=
  textWith_congr fun q hq => variableOf_bindings (mem_queries.mpr ⟨q, hq, rfl⟩)

/-- A formula stands for its expression. Its variables are as many as the different
    texts of queries, named in the order in which those first print; it has the variable
    of its text in place of each query, and with the texts back in place of the variables
    it prints as the expression does. -/
theorem formula_stands_for (e : Expression) :
    let shown := (queriesAmong e.parts).map Query.text
    (∀ leaf, e.textWith leaf = printParts leaf e.parts) ∧
    e.queries = shown.eraseDups ∧ e.queries.Nodup ∧
    e.formula.bindings.map Prod.fst = (List.range e.queries.length).map Formula.variableName ∧
    e.formula.bindings.map Prod.snd = e.queries ∧ (e.formula.bindings.map Prod.fst).Nodup ∧
    (∀ text ∈ shown, Formula.variableOf e.formula.bindings text = e.variableFor text ∧
      e.formula.bindings.lookup (e.variableFor text) = some text) ∧
    e.formula.text = e.textWith (fun q => e.variableFor q.text) ∧
    e.textWith (fun q => (e.formula.bindings.lookup (e.variableFor q.text)).getD "") = e.text := by
  intro shown
  have hqueries : e.queries = shown.eraseDups := by rw [queries, leaves_eq]
  have hnames : e.formula.bindings.map Prod.fst =
      (List.range e.queries.length).map Formula.variableName := Formula.map_fst_nameTexts _
  refine ⟨fun leaf => textWith_eq leaf e, hqueries, nodup_eraseDups _, hnames,
    Formula.map_snd_nameTexts _, hnames ▸ Formula.nodup_names _, fun text htext => ?_,
    text_formula e, textWith_congr fun q hq => ?_⟩
  · have hmem : text ∈ e.queries := hqueries ▸ List.mem_eraseDups.mpr htext
    exact ⟨variableOf_bindings hmem, lookup_variableFor hmem⟩
  · rw [lookup_variableFor (mem_queries.mpr ⟨q, hq, rfl⟩), Option.getD_some]

end Expression

end MetricLang
