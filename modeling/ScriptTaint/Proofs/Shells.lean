import Mathlib.Data.List.Basic
import ScriptTaint.Proofs.ConstancyLaws
import ScriptTaint.Proofs.Loops

/-!
# Shells

The shell of a node is the node with every block in it emptied, down to the span. What is known of a
node under the bindings of its scope is known of its shell: its constancy (`Node.constancy_shell`),
its marks of escaping (`Node.carriesEscaped_shell`) and its binding steps (`Node.steps_shell`). So
the bindings of a block are those of its shell (`Block.bindings_shell`): nothing that happens inside
another block reaches them.
-/

set_option autoImplicit false

namespace ScriptTaint

/-- The block without anything in it. -/
def Block.emptied (b : Block) : Block := ⟨b.span, [], [], []⟩

mutual

/-- The node with the blocks in it emptied. -/
def Node.shell : Node → Node
  | .literal value span => .literal value span
  | .expandable value holes span => .expandable value (Node.shells holes) span
  | .reference v => .reference v
  | .typeLiteral name span => .typeLiteral name span
  | .assignment target value op span => .assignment target.shell value.shell op span
  | .binary op left right span => .binary op left.shell right.shell span
  | .arrayLiteral elements span => .arrayLiteral (Node.shells elements) span
  | .paren inner span => .paren inner.shell span
  | .subExpression statements span => .subExpression (Node.shells statements) span
  | .cast typeName operand span => .cast typeName operand.shell span
  | .command c => .command c.shell
  | .pipeline elements span => .pipeline (Node.shells elements) span
  | .invocation i => .invocation i.shell
  | .member target name isStatic span => .member target.shell name.shell isStatic span
  | .scriptBlock b => .scriptBlock b.emptied
  | .function name span body => .function name span body.emptied
  | .conditional clauses otherwise span =>
    .conditional (Clause.shells clauses) (Node.bodyShell otherwise) span
  | .forEach item iterable body span => .forEach item iterable.shell (Node.shells body) span
  | .unsupported kind span children => .unsupported kind span (Node.shells children)

def Node.shells : List Node → List Node
  | [] => []
  | n :: ns => n.shell :: Node.shells ns

def Node.bodyShell : Option (List Node) → Option (List Node)
  | none => none
  | some ns => some (Node.shells ns)

def Command.shell : Command → Command
  | ⟨name, elements, span⟩ => ⟨name.shell, Element.shells elements, span⟩

def Invocation.shell : Invocation → Invocation
  | ⟨target, name, arguments, isStatic, span⟩ =>
    ⟨target.shell, name.shell, Node.shells arguments, isStatic, span⟩

def Element.shell : Element → Element
  | .argument value => .argument value.shell
  | .parameter name none span => .parameter name none span
  | .parameter name (some bound) span => .parameter name (some bound.shell) span

def Element.shells : List Element → List Element
  | [] => []
  | e :: es => e.shell :: Element.shells es

def Clause.shell : Clause → Clause
  | ⟨condition, body⟩ => ⟨condition.shell, Node.shells body⟩

def Clause.shells : List Clause → List Clause
  | [] => []
  | c :: cs => c.shell :: Clause.shells cs

end

attribute [local simp] Node.shell

@[simp] theorem Node.shells_eq_map : ∀ ns : List Node, Node.shells ns = ns.map shell
  | [] => by simp [Node.shells]
  | n :: ns => by simp [Node.shells, Node.shells_eq_map ns]

@[simp] theorem Element.shells_eq_map : ∀ es : List Element, Element.shells es = es.map shell
  | [] => by simp [Element.shells]
  | e :: es => by simp [Element.shells, Element.shells_eq_map es]

@[simp] theorem Clause.shells_eq_map : ∀ cs : List Clause, Clause.shells cs = cs.map shell
  | [] => by simp [Clause.shells]
  | c :: cs => by simp [Clause.shells, Clause.shells_eq_map cs]

theorem Command.shell_eq (c : Command) :
    c.shell = ⟨c.name.shell, c.elements.map Element.shell, c.span⟩ := by
  obtain ⟨name, elements, span⟩ := c
  rw [Command.shell, Element.shells_eq_map]

theorem Invocation.shell_eq (i : Invocation) :
    i.shell = ⟨i.target.shell, i.name.shell, i.arguments.map Node.shell, i.isStatic, i.span⟩ := by
  obtain ⟨target, name, arguments, isStatic, span⟩ := i
  rw [Invocation.shell, Node.shells_eq_map]

theorem Clause.shell_eq (c : Clause) : c.shell = ⟨c.condition.shell, c.body.map Node.shell⟩ := by
  obtain ⟨condition, body⟩ := c
  rw [Clause.shell, Node.shells_eq_map]

theorem Element.operand?_shell (e : Element) : e.shell.operand? = e.operand?.map Node.shell := by
  cases e with
  | argument value => simp [Element.shell, operand?]
  | parameter name bound span => cases bound <;> simp [Element.shell, operand?]

namespace Node

@[simp] theorem span_shell (n : Node) : n.shell.span = n.span := by
  cases n <;> simp [shell, span, Block.emptied, Command.shell_eq, Invocation.shell_eq]

theorem children_shell (n : Node) : n.shell.children = n.children.map shell := by
  cases n with
  | command c =>
    simp only [shell, children, Command.shell_eq, List.filterMap_map, List.map_cons,
      List.map_filterMap]
    congr 2
    funext e
    exact e.operand?_shell
  | invocation i => simp [shell, children, Invocation.shell_eq]
  | conditional clauses otherwise span =>
    have hclauses : (clauses.map Clause.shell).flatMap (fun c => c.condition :: c.body) =
        (clauses.flatMap fun c => c.condition :: c.body).map shell := by
      rw [List.flatMap_map, List.map_flatMap]
      congr 1
      funext c
      simp [Clause.shell_eq]
    cases otherwise with
    | none => simp [shell, bodyShell, children, hclauses]
    | some body => simp [shell, bodyShell, children, hclauses]
  | _ => simp [shell, children]

theorem within_shell (n : Node) : n.shell.within = n.within.map shell := by
  induction n using Node.induction_children with
  | step n ih =>
    rw [within_eq, within_eq n, children_shell, List.map_cons, List.flatMap_map, List.map_flatMap]
    congr 1
    exact List.flatMap_congr ih

/-! ## Constancy and marks -/

theorem isCommand_shell (n : Node) : n.shell.isCommand = n.isCommand := by
  cases n <;> simp [shell, isCommand]

theorem constancy_shell (b : Bindings) (n : Node) : n.shell.constancy b = n.constancy b := by
  induction n using Node.induction_children with
  | step n ih =>
    have joint : ∀ cs : List Node, (∀ c ∈ cs, c.shell.constancy b = c.constancy b) →
        (cs.map shell).map (·.constancy b) = cs.map (·.constancy b) := by
      intro cs h
      rw [List.map_map]
      exact List.map_congr_left h
    cases n with
    | expandable value holes span =>
      simp only [shell, shells_eq_map]
      rw [constancy_expandable, constancy_expandable, joint holes ih]
    | arrayLiteral elements span =>
      simp only [shell, shells_eq_map]
      rw [constancy_arrayLiteral, constancy_arrayLiteral, joint elements ih]
    | assignment target value op span =>
      have hvalue := ih value (by simp [children])
      rw [shell, constancy.eq_def, constancy.eq_def b (.assignment _ _ _ _)]
      exact hvalue
    | binary op left right span =>
      rw [shell, constancy_binary, constancy_binary, ih left (by simp [children]),
        ih right (by simp [children])]
    | paren inner span =>
      rw [shell, constancy_paren, constancy_paren, ih inner (by simp [children])]
    | cast typeName operand span =>
      rw [shell, constancy_cast, constancy_cast, ih operand (by simp [children])]
    | pipeline elements span =>
      rcases elements with _ | ⟨single, _ | ⟨second, rest⟩⟩
      · simp [shell]
      · have hsingle := ih single (by simp [children])
        simp only [shell, shells_eq_map, List.map_cons, List.map_nil]
        rw [constancy.eq_def, constancy.eq_def b (.pipeline [single] span)]
        simp only [isCommand_shell, hsingle]
      · simp only [shell, shells_eq_map, List.map_cons]
        rw [constancy.eq_def, constancy.eq_def b (.pipeline _ span)]
    | _ =>
      rw [constancy.eq_def, constancy.eq_def b (_ : Node)]
      simp [shell]

theorem literal?_shell (n : Node) : n.shell.literal? = n.literal? := by
  cases n <;> simp [shell, literal?]

theorem fixedText?_shell (n : Node) : n.shell.fixedText? = n.fixedText? := by
  cases n with
  | expandable value holes span => cases holes <;> simp [shell, fixedText?]
  | _ => simp [shell, fixedText?]

theorem pattern?_shell (n : Node) : n.shell.pattern? = n.pattern? := by
  cases n with
  | arrayLiteral elements span => cases elements <;> simp [shell, pattern?, fixedText?_shell]
  | expandable value holes span => cases holes <;> simp [shell, pattern?, fixedText?]
  | _ => simp [shell, pattern?, fixedText?]

theorem escapedOperand?_shell (n : Node) :
    n.shell.escapedOperand? = n.escapedOperand?.map shell := by
  induction n using Node.induction_children with
  | step n ih =>
    cases n with
    | invocation i =>
      have hname : i.shell.name? = i.name? := by
        rw [Invocation.shell_eq]
        exact i.name.literal?_shell
      have hfirst : (i.arguments.head?.map shell).bind fixedText? =
          i.arguments.head?.bind fixedText? := by
        cases i.arguments.head? with
        | none => rfl
        | some first => exact first.fixedText?_shell
      simp only [shell, escapedOperand?, hname]
      cases i.name? with
      | none => rfl
      | some name =>
        simp only [Invocation.shell_eq, List.head?_map, List.length_map, hfirst]
        split
        · rfl
        · split <;> rfl
    | binary op left right span =>
      cases op with
      | replace =>
        simp only [shell, escapedOperand?, pattern?_shell]
        split <;> rfl
      | _ => simp [shell, escapedOperand?]
    | paren inner span =>
      simp only [shell, escapedOperand?]
      exact ih inner (by simp [children])
    | _ => simp [shell, escapedOperand?]

theorem isEscapedHere_shell (b : Bindings) (n : Node) :
    n.shell.isEscapedHere b = n.isEscapedHere b := by
  unfold isEscapedHere
  rw [escapedOperand?_shell]
  congr 1
  · cases n.escapedOperand? with
    | none => rfl
    | some operand => simp [constancy_shell]
  · cases n <;> simp [shell]

theorem carriesEscaped_shell (b : Bindings) (n : Node) :
    n.shell.carriesEscaped b = n.carriesEscaped b := by
  unfold carriesEscaped
  rw [within_shell, List.any_map]
  congr 1
  funext m
  exact m.isEscapedHere_shell b

/-! ## Assignments and steps -/

theorem baseVariable?_shell (n : Node) : n.shell.baseVariable? = n.baseVariable? := by
  induction n using Node.induction_children with
  | step n ih =>
    cases n with
    | member target name isStatic span =>
      simp only [shell, baseVariable?]
      exact ih target (by simp [children])
    | invocation i =>
      have htarget := ih i.target (by simp [children])
      obtain ⟨target, name, arguments, isStatic, span⟩ := i
      simp only [shell, Invocation.shell_eq, baseVariable?]
      exact htarget
    | paren inner span =>
      simp only [shell, baseVariable?]
      exact ih inner (by simp [children])
    | _ => simp [shell, baseVariable?]

theorem targetKeys_shell (n : Node) : n.shell.targetKeys = n.targetKeys := by
  induction n using Node.induction_children with
  | step n ih =>
    cases n with
    | cast typeName operand span =>
      rw [shell, targetKeys.eq_def, targetKeys.eq_def (.cast _ _ _)]
      exact ih operand (by simp [children])
    | arrayLiteral elements span =>
      rw [shell, shells_eq_map, targetKeys_arrayLiteral, targetKeys_arrayLiteral,
        List.flatMap_map]
      exact List.flatMap_congr ih
    | member target name isStatic span =>
      rw [shell, targetKeys.eq_def, targetKeys.eq_def (.member _ _ _ _)]
      simp only [baseVariable?_shell]
    | _ =>
      rw [targetKeys.eq_def, targetKeys.eq_def (_ : Node)]
      simp [shell]

theorem assignsHere_shell (n : Node) : n.shell.assignsHere = n.assignsHere := by
  cases n <;> simp [shell, assignsHere, targetKeys_shell]

theorem assigned_shell (n : Node) : n.shell.assigned = n.assigned := by
  unfold assigned
  rw [within_shell, List.flatMap_map]
  exact List.flatMap_congr fun m _ => m.assignsHere_shell

theorem loopEntry_shell (body : List Node) (entry : UInt32) :
    loopEntry (body.map shell) entry = loopEntry body entry := by
  unfold loopEntry
  rw [List.flatMap_map, List.flatMap_congr fun m _ => m.assigned_shell]

end Node

/-- The step with the shells of its nodes. -/
def Step.shell : Step → Step
  | .declare key since => .declare key since
  | .assign target value op since => .assign target.shell value.shell op since

namespace Node

theorem map_shell_loopEntry (body : List Node) (entry : UInt32) :
    (loopEntry body entry).map Step.shell = loopEntry body entry := by
  unfold loopEntry
  rw [List.map_map]
  rfl

theorem steps_shell (n : Node) : n.shell.steps = n.steps.map Step.shell := by
  induction n using Node.induction_children with
  | step n ih =>
    have parts : ∀ cs : List Node, (∀ c ∈ cs, c ∈ n.children) →
        (cs.map shell).flatMap steps = (cs.flatMap steps).map Step.shell := by
      intro cs h
      rw [List.flatMap_map, List.map_flatMap]
      exact List.flatMap_congr fun c hc => ih c (h c hc)
    cases n with
    | assignment target value op span =>
      rw [shell, steps_assignment, steps_assignment, ih value (by simp [children]),
        List.map_append]
      rfl
    | forEach item iterable body span =>
      have hbody := parts body fun c hc => List.mem_cons_of_mem _ hc
      rw [shell, shells_eq_map, steps_loop rfl,
        steps_loop (n := .forEach item iterable body span) rfl]
      simp only [Loop.steps, List.map_append, loopEntry_shell, map_shell_loopEntry, hbody,
        span_shell, ih iterable (by simp [children])]
      rfl
    | unsupported kind span cs =>
      have hbody := parts cs fun c hc => hc
      rw [shell, shells_eq_map, steps_loop rfl, steps_loop (n := .unsupported kind span cs) rfl]
      simp only [Loop.steps, List.map_append, loopEntry_shell, map_shell_loopEntry, hbody]
      rfl
    | _ =>
      rw [steps_passive (by simp [shell, isPassive]), steps_passive rfl, children_shell]
      exact parts _ fun c hc => hc

end Node

namespace Bindings

theorem bind_shell (b : Bindings) (since : UInt32) (x : Binding) (target : Node) :
    b.bind since x target.shell = b.bind since x target := by
  induction target using Node.induction_children generalizing b with
  | step target ih =>
    cases target with
    | cast typeName operand span =>
      rw [Node.shell, bind.eq_def, bind.eq_def b since x (.cast _ _ _)]
      exact ih operand (by simp [Node.children]) b
    | arrayLiteral elements span =>
      rw [Node.shell, Node.shells_eq_map, bind_arrayLiteral, bind_arrayLiteral, List.foldl_map]
      exact List.foldl_ext _ _ _ fun b e he => ih e he b
    | member target name isStatic span =>
      rw [Node.shell, bind.eq_def, bind.eq_def b since x (.member _ _ _ _)]
      simp only [Node.baseVariable?_shell]
    | _ =>
      rw [bind.eq_def, bind.eq_def b since x (_ : Node)]
      simp [Node.shell]

theorem step_shell (b : Bindings) (s : Step) : b.step s.shell = b.step s := by
  cases s with
  | declare key since => rfl
  | assign target value op since =>
    simp only [Step.shell, step, bind_shell, Node.constancy_shell, Node.carriesEscaped_shell]

theorem run_shell (b : Bindings) (steps : List Step) :
    b.run (steps.map Step.shell) = b.run steps := by
  unfold run
  rw [List.foldl_map]
  exact List.foldl_ext _ _ _ fun b s _ => b.step_shell s

end Bindings

/-! ## Blocks -/

/-- The parameter with the shell of its default. -/
def Param.shell (p : Param) : Param := { p with default? := p.default?.map Node.shell }

/-- The block with the blocks inside it emptied. -/
def Block.shell (b : Block) : Block :=
  { b with params := b.params.map Param.shell, statements := b.statements.map Node.shell }

/-- **Blocks are apart**: what a block binds does not depend on what is inside the blocks in it. -/
theorem Block.bindings_shell (b : Block) : b.shell.bindings = b.bindings := by
  have hparams : b.shell.paramSteps = b.paramSteps := by
    unfold paramSteps
    simp only [shell, List.map_map]
    rfl
  have hsteps : b.shell.steps = b.steps.map Step.shell := by
    have hdeclare : b.paramSteps.map Step.shell = b.paramSteps := by
      unfold paramSteps
      rw [List.map_map]
      rfl
    rw [steps_eq, steps_eq, List.map_append, hdeclare, hparams, List.map_flatMap]
    congr 1
    simp only [shell, List.flatMap_map]
    exact List.flatMap_congr fun n _ => n.steps_shell
  rw [bindings_eq, bindings_eq, hsteps, Bindings.run_shell]

end ScriptTaint
