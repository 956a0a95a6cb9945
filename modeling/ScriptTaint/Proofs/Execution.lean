import ScriptTaint.Proofs.ConstancyLaws
import ScriptTaint.Proofs.Loops

/-!
# Running scripts

A store semantics for scripts made of assignments and loops, to say what a constant expression is
constant in. Values and operators are left open (`Interpretation`): literals, script blocks and
automatic variables have fixed values, the operators that keep constancy are fixed functions of
their operands, and everything else (`free`) may be any value, at each evaluation anew.

`Runs I w σ log τ`: doing `w` from the store `σ` may end in `τ`. The log holds every expression
that was evaluated on the way, each part of it included, with its value.
-/

set_option autoImplicit false

namespace ScriptTaint

/-- The values of variables, by key. -/
abbrev Store (V : Type) := String → V

def Store.set {V : Type} (σ : Store V) (key : String) (x : V) : Store V :=
  fun k => if k = key then x else σ k

@[simp] theorem Store.set_self {V : Type} (σ : Store V) (key : String) (x : V) :
    σ.set key x key = x := if_pos rfl

theorem Store.set_ne {V : Type} (σ : Store V) {key k : String} (h : k ≠ key) (x : V) :
    σ.set key x k = σ k := if_neg h

/-- What literals and operators mean. -/
structure Interpretation (V : Type) where
  literal : String → V
  typeLiteral : String → V
  scriptBlock : Block → V
  automatic : String → V
  expandable : String → List V → V
  binary : BinaryOp → V → V → V
  array : List V → V
  paren : V → V
  cast : String → V → V
  pipeline : V → V

section
variable {V : Type} (I : Interpretation V)

/-- The value of an expression; `free` supplies the values that nothing fixes. -/
def Node.eval (free : Node → V) (σ : Store V) (n : Node) : V :=
  match n with
  | .literal value _ => I.literal value
  | .typeLiteral name _ => I.typeLiteral name
  | .scriptBlock b => I.scriptBlock b
  | .reference v =>
    if v.isAutomatic then I.automatic v.key
    else if v.isQualified then free (.reference v)
    else σ v.key
  | .expandable value holes _ =>
    I.expandable value (holes.attach.map fun ⟨h, _⟩ => h.eval free σ)
  | .binary op left right _ => I.binary op (left.eval free σ) (right.eval free σ)
  | .arrayLiteral elements _ => I.array (elements.attach.map fun ⟨e, _⟩ => e.eval free σ)
  | .paren inner _ => I.paren (inner.eval free σ)
  | .cast typeName operand _ => I.cast typeName (operand.eval free σ)
  | .pipeline [single] span =>
    if single.isCommand then free (.pipeline [single] span) else I.pipeline (single.eval free σ)
  | other => free other
termination_by sizeOf n
decreasing_by
  · exact Node.sizeOf_child (n := .expandable _ holes _) ‹_›
  · exact Node.sizeOf_child (n := .binary _ left right _) (by simp [children])
  · exact Node.sizeOf_child (n := .binary _ left right _) (by simp [children])
  · exact Node.sizeOf_child (n := .arrayLiteral elements _) ‹_›
  · exact Node.sizeOf_child (n := .paren inner _) (by simp [children])
  · exact Node.sizeOf_child (n := .cast _ operand _) (by simp [children])
  · exact Node.sizeOf_child (n := .pipeline [single] _) (by simp [children])

/-- The expression and its parts with their values. -/
def Node.observed (free : Node → V) (σ : Store V) (n : Node) : List (Node × V) :=
  n.within.map fun m => (m, m.eval I free σ)

/-- What is to be done: statements, or the rounds of a loop. -/
inductive Work
  | statements (ss : List Node)
  | rounds (item : Variable) (body : List Node)

/-- A run, with the expressions evaluated on the way. -/
inductive Runs : Work → Store V → List (Node × V) → Store V → Prop
  | nil {σ : Store V} : Runs (.statements []) σ [] σ
  | assign {v : Variable} {e : Node} {span : Span} {ss : List Node} {σ τ : Store V}
      {log : List (Node × V)} (free : Node → V) :
      Runs (.statements ss) (σ.set v.key (e.eval I free σ)) log τ →
      Runs (.statements (.assignment (.reference v) e .assign span :: ss)) σ
        (e.observed I free σ ++ log) τ
  /-- The old value is read. The tree does not say which operator it is, so it may give any
  value. -/
  | compound {v : Variable} {e : Node} {span : Span} {ss : List Node} {σ τ : Store V}
      {log : List (Node × V)} (free : Node → V) (x : V) :
      Runs (.statements ss) (σ.set v.key x) log τ →
      Runs (.statements (.assignment (.reference v) e .compound span :: ss)) σ
        ((Node.reference v).observed I free σ ++ e.observed I free σ ++ log) τ
  | forEach {item : Variable} {iterable : Node} {body : List Node} {span : Span}
      {ss : List Node} {σ τ υ : Store V} {log log' : List (Node × V)} (free : Node → V) :
      Runs (.rounds item body) σ log τ → Runs (.statements ss) τ log' υ →
      Runs (.statements (.forEach item iterable body span :: ss)) σ
        (iterable.observed I free σ ++ log ++ log') υ
  | done {item : Variable} {body : List Node} {σ : Store V} : Runs (.rounds item body) σ [] σ
  | round {item : Variable} {body : List Node} {σ τ υ : Store V} {log log' : List (Node × V)}
      (x : V) : Runs (.statements body) (σ.set item.key x) log τ →
      Runs (.rounds item body) τ log' υ → Runs (.rounds item body) σ (log ++ log') υ

end

/-! ## The scripts that are run -/

namespace Node

def isBinding : Node → Bool
  | .assignment .. | .forEach .. => true
  | _ => false

/-- Nothing is assigned in the node. -/
def BindingFree (n : Node) : Prop := ∀ m ∈ n.within, m.isBinding = false

instance (n : Node) : Decidable n.BindingFree :=
  inferInstanceAs (Decidable (∀ m ∈ n.within, m.isBinding = false))

/-- An assignment of a binding-free expression to a variable of the scope, or a loop over such
statements. -/
inductive Executable : Node → Prop
  | assign {v : Variable} {e : Node} {op : AssignOp} {span : Span} :
      v.isQualified = false → e.BindingFree → Executable (.assignment (.reference v) e op span)
  | forEach {item : Variable} {iterable : Node} {body : List Node} {span : Span} :
      item.isQualified = false → iterable.BindingFree → (∀ s ∈ body, Executable s) →
      Executable (.forEach item iterable body span)

namespace BindingFree

variable {n m : Node}

theorem of_within (h : n.BindingFree) (hm : m ∈ n.within) : m.BindingFree :=
  fun x hx => h x (within_trans hm hx)

theorem child {c : Node} (h : n.BindingFree) (hc : c ∈ n.children) : c.BindingFree :=
  h.of_within (mem_within_of_child hc c.mem_within_self)

theorem here (h : n.BindingFree) : n.isBinding = false := h n n.mem_within_self

theorem reference (v : Variable) : (Node.reference v).BindingFree := by
  intro m hm
  rw [within_eq, children, List.flatMap_nil, List.mem_singleton] at hm
  subst hm
  rfl

theorem assigned_eq_nil (h : n.BindingFree) : n.assigned = [] := by
  refine List.flatMap_eq_nil_iff.2 fun m hm => ?_
  have hb := h m hm
  cases m with
  | assignment | forEach => cases hb
  | _ => rfl

theorem steps_eq_nil (h : n.BindingFree) : n.steps = [] := by
  refine List.eq_nil_iff_forall_not_mem.2 fun s hs => ?_
  induction n using Node.induction_children with
  | step n ih =>
    rcases mem_steps hs with ⟨c, hc, hs⟩ | hown
    · exact ih c hc (h.child hc) hs
    · cases n with
      | assignment | forEach => cases h.here
      | unsupported kind span children =>
        obtain ⟨key, hk, -⟩ := mem_loopEntry.1 hown
        obtain ⟨c, hc, hk⟩ := List.mem_flatMap.1 hk
        rw [(h.child hc).assigned_eq_nil] at hk
        cases hk
      | _ => cases hown

/-- An assignment of a binding-free expression is a single step. -/
theorem steps_assignment (h : n.BindingFree) (target : Node) (op : AssignOp) (span : Span) :
    (Node.assignment target n op span).steps = [.assign target n op span.stop] := by
  rw [Node.steps_assignment, h.steps_eq_nil, List.nil_append]

end BindingFree

theorem Executable.of_assignment {v : Variable} {e : Node} {op : AssignOp} {span : Span}
    (h : (Node.assignment (.reference v) e op span).Executable) :
    v.isQualified = false ∧ e.BindingFree := by
  cases h with
  | assign hq hfree => exact ⟨hq, hfree⟩

/-! ## Constant expressions -/

/-- **A constant expression depends on its constant variables only**: not on the rest of the store,
and on no free choice. -/
theorem eval_congr {V : Type} (I : Interpretation V) {n : Node} {b : Bindings} {σ ρ : Store V}
    (free free' : Node → V) (hn : n.BindingFree) (hc : n.constancy b = .constant)
    (h : ∀ v, .reference v ∈ n.within → b.constancy v = .constant → σ v.key = ρ v.key) :
    n.eval I free σ = n.eval I free' ρ := by
  induction n using Node.induction_children with
  | step n ih =>
    have part : ∀ c ∈ n.children, c.constancy b = .constant →
        c.eval I free σ = c.eval I free' ρ := fun c hm hc =>
      ih c hm (hn.child hm) hc fun v hv => h v (mem_within_of_child hm hv)
    rw [eval.eq_def, eval.eq_def I free']
    cases n with
    | literal | typeLiteral | scriptBlock => rfl
    | expandable value holes span =>
      rw [constancy_expandable, Constancy.joinAll_eq_constant] at hc
      simp only [List.map_subtype, List.unattach_attach]
      congr 1
      exact List.map_congr_left fun e he => part e he (hc _ (List.mem_map_of_mem he))
    | reference v =>
      rw [constancy_reference] at hc
      by_cases ha : v.isAutomatic = true
      · simp [ha]
      · simp only [ha, Bool.false_eq_true, ↓reduceIte] at hc ⊢
        simp only [Bindings.not_isQualified_of_constant hc, Bool.false_eq_true, ↓reduceIte]
        exact h v (mem_within_self _) hc
    | binary op left right span =>
      rw [constancy_binary, Constancy.join_eq_constant] at hc
      simp only [part left (by simp [children]) hc.1, part right (by simp [children]) hc.2]
    | arrayLiteral elements span =>
      rw [constancy_arrayLiteral, Constancy.joinAll_eq_constant] at hc
      simp only [List.map_subtype, List.unattach_attach]
      congr 1
      exact List.map_congr_left fun e he => part e he (hc _ (List.mem_map_of_mem he))
    | paren inner span =>
      rw [constancy_paren] at hc
      simp only [part inner (by simp [children]) hc]
    | cast typeName operand span =>
      rw [constancy_cast] at hc
      simp only [part operand (by simp [children]) hc]
    | pipeline elements span =>
      obtain ⟨single, rfl, hcmd, hc⟩ := (constancy_pipeline b).1 hc
      simp only [hcmd, Bool.false_eq_true, ↓reduceIte, part single (by simp [children]) hc]
    | assignment | forEach => cases hn.here
    | _ => rw [constancy.eq_def] at hc; cases hc

end Node

end ScriptTaint
