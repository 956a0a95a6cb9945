import ScriptTaint.Proofs.NestedScopes

/-!
# Trees that are built

A plan is a construction written down: each call with what it is built from, nested as the calls
are. `build` carries a plan out, from left to right, so what a call is handed has been built when
the call takes its own leaves. Plans are carried out one after the other from one next free offset
on. As long as the offsets last, what they build is laid out like a document
(`layout_documentOrder`).
-/

set_option autoImplicit false

namespace ScriptTaint

namespace Layout

/-! ## Plans -/

mutual

/-- A node to build. -/
inductive NodePlan
  | literal (value : String)
  | expandable (value : String) (holes : List NodePlan)
  | reference (name : String)
  | typeLiteral (name : String)
  | assignment (op : AssignOp) (target value : NodePlan)
  | binary (op : BinaryOp) (left right : NodePlan)
  | arrayLiteral (elements : List NodePlan)
  | replace (operand : NodePlan) (pattern replacement : String)
  | paren (inner : NodePlan)
  | subExpression (statements : List NodePlan)
  | cast (typeName : String) (operand : NodePlan)
  | invocation (target name : NodePlan) (arguments : List NodePlan) (isStatic : Bool)
  | invoke (target : NodePlan) (method : String) (arguments : List NodePlan)
  | invokeStatic (typeName method : String) (arguments : List NodePlan)
  | memberOf (target name : NodePlan) (isStatic : Bool)
  | member (target : NodePlan) (name : String)
  | commandWith (name : NodePlan) (elements : List ElementPlan)
  | command (name : String) (elements : List ElementPlan)
  | pipeline (elements : List NodePlan)
  | scriptBlock (statements : List NodePlan)
  | functionWith (name : String) (body : BlockPlan)
  | function (name : String) (params : List String) (statements : List NodePlan)
  | conditional (condition : NodePlan) (body : List NodePlan)
  | forEach (item : String) (iterable : NodePlan) (body : List NodePlan)
  | unsupported (kind : String) (children : List NodePlan)

/-- An element of a command to build. -/
inductive ElementPlan
  | argument (value : NodePlan)
  | parameter (name : String) (bound : Option NodePlan)

/-- A block to build. -/
inductive BlockPlan
  | block (params : List String) (statements : List NodePlan)
  | suppress (inner : BlockPlan) (rule justification : String)

end

mutual

def NodePlan.build : NodePlan → Layout Node
  | .literal value => Layout.literal value
  | .expandable value holes => do Layout.expandable value (← NodePlan.buildAll holes)
  | .reference name => Layout.reference name
  | .typeLiteral name => Layout.typeLiteral name
  | .assignment op target value => do
    let target ← target.build
    return Layout.assignment op target (← value.build)
  | .binary op left right => do
    let left ← left.build
    return Layout.binary op left (← right.build)
  | .arrayLiteral elements => do Layout.arrayLiteral (← NodePlan.buildAll elements)
  | .replace operand pattern replacement => do
    Layout.replace (← operand.build) pattern replacement
  | .paren inner => return Layout.paren (← inner.build)
  | .subExpression statements => do Layout.subExpression (← NodePlan.buildAll statements)
  | .cast typeName operand => return Layout.cast typeName (← operand.build)
  | .invocation target name arguments isStatic => do
    let target ← target.build
    let name ← name.build
    return Layout.invocation target name (← NodePlan.buildAll arguments) isStatic
  | .invoke target method arguments => do
    let target ← target.build
    Layout.invoke target method (← NodePlan.buildAll arguments)
  | .invokeStatic typeName method arguments => do
    Layout.invokeStatic typeName method (← NodePlan.buildAll arguments)
  | .memberOf target name isStatic => do
    let target ← target.build
    return Layout.memberOf target (← name.build) isStatic
  | .member target name => do Layout.member (← target.build) name
  | .commandWith name elements => do
    let name ← name.build
    return Layout.commandWith name (← ElementPlan.buildAll elements)
  | .command name elements => do Layout.command name (← ElementPlan.buildAll elements)
  | .pipeline elements => do Layout.pipeline (← NodePlan.buildAll elements)
  | .scriptBlock statements => do Layout.scriptBlock (← NodePlan.buildAll statements)
  | .functionWith name body => do Layout.functionWith name (← body.build)
  | .function name params statements => do
    Layout.function name params (← NodePlan.buildAll statements)
  | .conditional condition body => do
    let condition ← condition.build
    return Layout.conditional condition (← NodePlan.buildAll body)
  | .forEach item iterable body => do
    let iterable ← iterable.build
    Layout.forEach item iterable (← NodePlan.buildAll body)
  | .unsupported kind children => do Layout.unsupported kind (← NodePlan.buildAll children)

def NodePlan.buildAll : List NodePlan → Layout (List Node)
  | [] => return []
  | p :: ps => do
    let n ← p.build
    return n :: (← NodePlan.buildAll ps)

def NodePlan.buildOption : Option NodePlan → Layout (Option Node)
  | none => return none
  | some p => return some (← p.build)

def ElementPlan.build : ElementPlan → Layout Element
  | .argument value => return .argument (← value.build)
  | .parameter name bound => do Layout.parameter name (← NodePlan.buildOption bound)

def ElementPlan.buildAll : List ElementPlan → Layout (List Element)
  | [] => return []
  | p :: ps => do
    let e ← p.build
    return e :: (← ElementPlan.buildAll ps)

def BlockPlan.build : BlockPlan → Layout Block
  | .block params statements => do Layout.block params (← NodePlan.buildAll statements)
  | .suppress inner rule justification => do
    Layout.suppress (← inner.build) rule justification

end

/-! ## Leaves -/

mutual

/-- The number of leaves that a plan takes, those of its parts first. -/
def NodePlan.leaves : NodePlan → Nat
  | .literal _ | .reference _ | .typeLiteral _ => 1
  | .expandable _ holes => NodePlan.leavesAll holes + 1
  | .assignment _ left right | .binary _ left right | .memberOf left right _ =>
    left.leaves + right.leaves
  | .arrayLiteral parts | .subExpression parts | .pipeline parts | .scriptBlock parts
  | .unsupported _ parts => NodePlan.leavesAll parts + ownLeaf parts
  | .replace operand _ _ => operand.leaves + 2
  | .paren inner | .cast _ inner => inner.leaves
  | .invocation target name arguments _ =>
    target.leaves + (name.leaves + NodePlan.leavesAll arguments)
  | .invoke target _ arguments => target.leaves + (NodePlan.leavesAll arguments + 1)
  | .invokeStatic _ _ arguments => NodePlan.leavesAll arguments + 2
  | .member target _ => target.leaves + 1
  | .commandWith name elements => name.leaves + ElementPlan.leavesAll elements
  | .command _ elements => ElementPlan.leavesAll elements + 1
  | .functionWith _ body => body.leaves + 1
  | .function _ params statements =>
    NodePlan.leavesAll statements + (params.length + ownLeaf statements + 1)
  | .conditional condition body => condition.leaves + NodePlan.leavesAll body
  | .forEach _ iterable body => iterable.leaves + (NodePlan.leavesAll body + 1)

def NodePlan.leavesAll : List NodePlan → Nat
  | [] => 0
  | p :: ps => p.leaves + NodePlan.leavesAll ps

def NodePlan.leavesOption : Option NodePlan → Nat
  | none => 0
  | some p => p.leaves

def ElementPlan.leaves : ElementPlan → Nat
  | .argument value => value.leaves
  | .parameter _ bound => NodePlan.leavesOption bound + 1

def ElementPlan.leavesAll : List ElementPlan → Nat
  | [] => 0
  | p :: ps => p.leaves + ElementPlan.leavesAll ps

def BlockPlan.leaves : BlockPlan → Nat
  | .block params statements =>
    NodePlan.leavesAll statements + (params.length + ownLeaf statements)
  | .suppress inner _ _ => inner.leaves + 1

end

theorem ownLeaf_buildAll (ps : List NodePlan) (next : UInt32) :
    ownLeaf (NodePlan.buildAll ps next).1 = ownLeaf ps := by
  cases ps <;> rfl

/-! ## Carrying plans out -/

mutual

-- A call without parts takes a leaf of its own; whether it has any is the same of the plan and of what
-- has been built, hence the rewriting with `ownLeaf_buildAll`.
theorem NodePlan.lays : ∀ p : NodePlan, Lays p.leaves [] p.build fun n => [.node n]
  | .literal value => lays_literal value
  | .expandable value holes => (NodePlan.lays_all holes).bind fun _ => lays_expandable value _
  | .reference name => lays_reference name
  | .typeLiteral name => lays_typeLiteral name
  | .assignment op target value =>
    target.lays.bind fun _ => (value.lays.frame _).result fun _ _ _ h => laid_assignment op h
  | .binary op left right =>
    left.lays.bind fun _ => (right.lays.frame _).result fun _ _ _ h => laid_binary op h
  | .arrayLiteral elements => (NodePlan.lays_all elements).bind fun next => by
    rw [← ownLeaf_buildAll elements next]
    exact lays_arrayLiteral _
  | .replace operand pattern replacement =>
    operand.lays.bind fun _ => lays_replace _ pattern replacement
  | .paren inner => inner.lays.result fun _ _ _ h => laid_paren h
  | .subExpression statements => (NodePlan.lays_all statements).bind fun next => by
    rw [← ownLeaf_buildAll statements next]
    exact lays_subExpression _
  | .cast typeName operand => operand.lays.result fun _ _ _ h => laid_cast typeName h
  | .invocation target name arguments isStatic =>
    target.lays.bind fun _ => (name.lays.frame _).bind fun _ =>
      ((NodePlan.lays_all arguments).frame _).result fun _ _ _ h =>
        laid_invocation isStatic h (.refl _)
  | .invoke target method arguments =>
    target.lays.bind fun _ => ((NodePlan.lays_all arguments).frame _).bind fun _ =>
      lays_invoke _ method _
  | .invokeStatic typeName method arguments =>
    (NodePlan.lays_all arguments).bind fun _ => lays_invokeStatic typeName method _
  | .memberOf target name isStatic =>
    target.lays.bind fun _ => (name.lays.frame _).result fun _ _ _ h => laid_memberOf isStatic h
  | .member target name => target.lays.bind fun _ => lays_member _ name
  | .commandWith name elements =>
    name.lays.bind fun _ => ((ElementPlan.lays_all elements).frame _).result fun _ _ _ h =>
      laid_commandWith h (.refl _)
  | .command name elements => (ElementPlan.lays_all elements).bind fun _ => lays_command name _
  | .pipeline elements => (NodePlan.lays_all elements).bind fun next => by
    rw [← ownLeaf_buildAll elements next]
    exact lays_pipeline _
  | .scriptBlock statements => (NodePlan.lays_all statements).bind fun next => by
    rw [← ownLeaf_buildAll statements next]
    exact lays_scriptBlock _
  | .functionWith name body => body.lays.bind fun _ => lays_functionWith name _
  | .function name params statements => (NodePlan.lays_all statements).bind fun next => by
    rw [← ownLeaf_buildAll statements next]
    exact lays_function name params _
  | .conditional condition body =>
    condition.lays.bind fun _ => ((NodePlan.lays_all body).frame _).result fun _ _ _ h =>
      laid_conditional h
  | .forEach item iterable body =>
    iterable.lays.bind fun _ => ((NodePlan.lays_all body).frame _).bind fun _ =>
      lays_forEach item _ _
  | .unsupported kind children => (NodePlan.lays_all children).bind fun next => by
    rw [← ownLeaf_buildAll children next]
    exact lays_unsupported kind _

theorem NodePlan.lays_all : ∀ ps : List NodePlan,
    Lays (NodePlan.leavesAll ps) [] (NodePlan.buildAll ps) fun ns => ns.map .node
  | [] => .pure fun _ _ h => h
  | p :: ps => p.lays.bind fun _ => ((NodePlan.lays_all ps).frame _).result fun _ _ _ h => h

theorem NodePlan.lays_option : ∀ p : Option NodePlan,
    Lays (NodePlan.leavesOption p) [] (NodePlan.buildOption p) fun n => n.toList.map .node
  | none => .pure fun _ _ h => h
  | some p => p.lays.result fun _ _ _ h => h

theorem ElementPlan.lays : ∀ p : ElementPlan, Lays p.leaves [] p.build fun e => [.element e]
  | .argument value => value.lays.result fun _ _ _ h => laid_argument h
  | .parameter name bound =>
    (NodePlan.lays_option bound).bind fun _ => lays_parameter name _

theorem ElementPlan.lays_all : ∀ ps : List ElementPlan,
    Lays (ElementPlan.leavesAll ps) [] (ElementPlan.buildAll ps) fun es => es.map .element
  | [] => .pure fun _ _ h => h
  | p :: ps => p.lays.bind fun _ => ((ElementPlan.lays_all ps).frame _).result fun _ _ _ h => h

theorem BlockPlan.lays : ∀ p : BlockPlan, Lays p.leaves [] p.build fun b => [.block b]
  | .block params statements => (NodePlan.lays_all statements).bind fun next => by
    rw [← ownLeaf_buildAll statements next]
    exact lays_block params _
  | .suppress inner rule justification =>
    inner.lays.bind fun _ => lays_suppress _ rule justification

end

/-- Anything that can be built. -/
inductive Plan
  | node (p : NodePlan)
  | element (p : ElementPlan)
  | block (p : BlockPlan)
  | nameUse (name : String)

namespace Plan

def build : Plan → Layout Part
  | .node p => return .node (← p.build)
  | .element p => return .element (← p.build)
  | .block p => return .block (← p.build)
  | .nameUse name => return .nameUse (← Layout.nameUse name)

def leaves : Plan → Nat
  | .node p => p.leaves
  | .element p => p.leaves
  | .block p => p.leaves
  | .nameUse _ => 1

theorem lays (p : Plan) : Lays p.leaves [] p.build fun q => [q] := by
  cases p with
  | node p => exact p.lays.result fun _ _ _ h => h
  | element p => exact p.lays.result fun _ _ _ h => h
  | block p => exact p.lays.result fun _ _ _ h => h
  | nameUse name => exact (lays_nameUse name).result fun _ _ _ h => h

def leavesAll : List Plan → Nat
  | [] => 0
  | p :: ps => p.leaves + leavesAll ps

theorem lays_all (ps : List Plan) : Lays (leavesAll ps) [] (ps.mapM build) fun parts => parts := by
  induction ps with
  | nil => exact .pure fun _ _ h => h
  | cons p ps ih =>
    rw [List.mapM_cons]
    exact p.lays.bind fun _ => (ih.frame _).result fun _ _ _ h => h

end Plan

/-! ## Document order -/

/-- Parts that are laid out like a document, from one offset up to another. -/
structure InDocumentOrder (first next : UInt32) (parts : List Part) : Prop where
  nonempty : ∀ p ∈ parts, ∀ q : Part, q.Within p → q.span.start < q.span.stop
  /-- Nothing lies outside of the two offsets. -/
  between : ∀ p ∈ parts, ∀ q : Part, q.Within p → first ≤ q.span.start ∧ q.span.stop < next
  /-- What a part is made of lies inside it. -/
  covers : ∀ p ∈ parts, ∀ q : Part, q.Within p →
    ∀ r ∈ q.constituents, q.span.contains r.span = true
  /-- Nothing in one constituent overlaps anything in another. -/
  apart : ∀ p ∈ parts, ∀ q : Part, q.Within p → q.constituents.Pairwise fun r s =>
    ∀ r' s' : Part, r'.Within r → s'.Within s → ¬r'.span.Overlaps s'.span
  /-- Everything in an earlier part ends before anything in a later one starts. -/
  ordered : parts.Pairwise fun p q =>
    ∀ p' q' : Part, p'.Within p → q'.Within q → p'.span.stop < q'.span.start
  /-- The scopes of a file with such a root nest. -/
  nested : ∀ (path : String) (b : Block), .block b ∈ parts → (tree path b).scopes.Nested

theorem inDocumentOrder_of_laid {first next : UInt32} {parts : List Part}
    (h : Laid first.toNat next.toNat parts) : InDocumentOrder first next parts where
  nonempty p hp q hq := ((h.sound p hp).within hq).1.nonempty
  between p hp q hq := by
    have hcontains := Span.contains_iff.1 ((h.sound p hp).within hq).2
    have hstart := h.start p hp
    have hstop := h.stop p hp
    rw [← UInt32.le_iff_toNat_le] at hstart
    rw [← UInt32.lt_iff_toNat_lt] at hstop
    exact ⟨UInt32.le_trans hstart hcontains.1, UInt32.lt_of_le_of_lt hcontains.2 hstop⟩
  covers p hp q hq r hr := ((h.sound p hp).within hq).1.covers hr
  apart p hp q hq := ((h.sound p hp).within hq).1.apart_within
  ordered := by
    refine h.ordered.imp_of_mem fun {p q} hp hq hlt p' q' hp' hq' => ?_
    have hleft := Span.contains_iff.1 ((h.sound p hp).within hp').2
    have hright := Span.contains_iff.1 ((h.sound q hq).within hq').2
    exact UInt32.lt_of_le_of_lt hleft.2 (UInt32.lt_of_lt_of_le hlt hright.1)
  nested path b hb := SyntaxTree.scopes_nested (h.sound _ hb)

theorem inDocumentOrder_mapM {plans : List Plan} {next : UInt32}
    (h : next.toNat + 2 * Plan.leavesAll plans < UInt32.size) :
    InDocumentOrder next (plans.mapM Plan.build next).2 (plans.mapM Plan.build next).1 :=
  inDocumentOrder_of_laid
    (Plan.lays_all plans next.toNat next (Nat.le_refl _) h (Laid.nil _ _)).2

end Layout

open Layout

/-- **What is built is laid out like a document.** Plans are carried out one after the other from the
offset `next` on, and the offsets that their leaves take are all below `2 ^ 32`: from a fresh start,
these are fewer than `2 ^ 31` leaves. Then each leaf moves the next free offset by two, what is
built lies in document order in between, and what is built at any later time comes after it. -/
theorem layout_documentOrder (plans : List Plan) (next : UInt32)
    (h : next.toNat + 2 * Plan.leavesAll plans < UInt32.size) :
    (plans.mapM Plan.build next).2.toNat = next.toNat + 2 * Plan.leavesAll plans ∧
    InDocumentOrder next (plans.mapM Plan.build next).2 (plans.mapM Plan.build next).1 ∧
    ∀ (later : List Plan) (next' : UInt32), (plans.mapM Plan.build next).2 ≤ next' →
      next'.toNat + 2 * Plan.leavesAll later < UInt32.size →
      ∀ p ∈ (plans.mapM Plan.build next).1, ∀ q ∈ (later.mapM Plan.build next').1,
        ∀ p' q' : Part, p'.Within p → q'.Within q → p'.span.stop < q'.span.start := by
  have hordered := inDocumentOrder_mapM h
  refine ⟨(Plan.lays_all plans _ next (Nat.le_refl _) h (Laid.nil _ _)).1, hordered, ?_⟩
  intro later next' hle hlater p hp q hq p' q' hp' hq'
  have hstop := (hordered.between p hp p' hp').2
  have hstart := ((inDocumentOrder_mapM hlater).between q hq q' hq').1
  exact UInt32.lt_of_lt_of_le hstop (UInt32.le_trans hle hstart)

/-- A string, and after it a script with a suppression, a function, a loop and a part that is not
modelled. -/
def annotatedScript : List Plan :=
  [.node (.expandable "$x" [.reference "x"]),
   .block (.suppress
     (.block ["Path"]
       [.function "Show" ["Name"] [.pipeline [], .scriptBlock [.command "Get-Date" []]],
        .forEach "f"
          (.command "Get-Item"
            [.parameter "Path" (some (.paren (.reference "Path"))), .argument (.literal "x")])
          [.replace (.reference "f") "a" "b"],
        .unsupported "TryStatement" []])
     "InjectionRisk.InvokeExpression" "reviewed")]

theorem layout_documentOrder_annotatedScript :
    UInt32.toNat 0 + 2 * Plan.leavesAll annotatedScript < UInt32.size ∧
      (annotatedScript.mapM Plan.build 0).2 = 34 ∧
      (annotatedScript.mapM Plan.build 0).1.map Part.span = [⟨0, 3⟩, ⟨4, 33⟩] ∧
      InDocumentOrder 0 (annotatedScript.mapM Plan.build 0).2
        (annotatedScript.mapM Plan.build 0).1 ∧
      ∀ p ∈ (annotatedScript.mapM Plan.build 0).1,
        ∀ q ∈ (List.mapM Plan.build [.nameUse "y"] 40).1,
          ∀ p' q' : Part, p'.Within p → q'.Within q → p'.span.stop < q'.span.start := by
  have h : UInt32.toNat 0 + 2 * Plan.leavesAll annotatedScript < UInt32.size := by decide
  have hnext : (annotatedScript.mapM Plan.build 0).2 = 34 := by decide +kernel
  obtain ⟨-, hordered, hlater⟩ := layout_documentOrder annotatedScript 0 h
  exact ⟨h, hnext, by decide +kernel, hordered,
    hlater [.nameUse "y"] 40 (hnext ▸ by decide) (by decide)⟩

end ScriptTaint
