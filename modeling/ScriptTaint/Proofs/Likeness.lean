import ScriptTaint.Proofs.ConstancyLaws
import ScriptTaint.Proofs.LetterCase
import ScriptTaint.Proofs.Loops
import ScriptTaint.Proofs.Related

/-!
# Blocks that are alike

A `Likeness` says which texts may stand for each other, namely such as differ in letter case only,
and which offsets may, namely such as come in the same order. Two nodes are alike if they have one
shape, with texts and offsets that may stand for each other in the same places (`Node.Like`). What
is computed from alike nodes is alike: their constancy and marks are equal under alike bindings
(`Node.Like.constancy_eq`, `Node.Like.carriesEscaped_eq`), their binding steps are alike
(`Node.Like.steps`), and so are the bindings of alike blocks (`Block.Like.bindings`).
-/

set_option autoImplicit false

namespace ScriptTaint

open List (Forall₂)

/-! ## Likeness -/

/-- Texts and offsets that may stand for each other. -/
structure Likeness where
  text : String → String → Prop
  offset : UInt32 → UInt32 → Prop
  lower_eq {s s' : String} : text s s' → Text.lower s = Text.lower s'
  lt_iff {a a' b b' : UInt32} : offset a a' → offset b b' → (a < b ↔ a' < b')

namespace Likeness

variable (φ : Likeness) {a a' b b' : UInt32}

theorem le_iff (ha : φ.offset a a') (hb : φ.offset b b') : a ≤ b ↔ a' ≤ b' := by
  rw [← UInt32.not_lt, ← UInt32.not_lt, φ.lt_iff hb ha]

theorem eq_iff (ha : φ.offset a a') (hb : φ.offset b b') : a = b ↔ a' = b' := by
  rw [UInt32.le_antisymm_iff, UInt32.le_antisymm_iff, φ.le_iff ha hb, φ.le_iff hb ha]

theorem eq_of_caseless {α : Type} {f : String → α} (hf : Text.Caseless f) {s s' : String}
    (h : φ.text s s') : f s = f s' :=
  hf.eq (φ.lower_eq h)

end Likeness

structure Span.Like (φ : Likeness) (s s' : Span) : Prop where
  start : φ.offset s.start s'.start
  stop : φ.offset s.stop s'.stop

structure Variable.Like (φ : Likeness) (v v' : Variable) : Prop where
  name : φ.text v.name v'.name
  span : v.span.Like φ v'.span

structure Annotation.Like (φ : Likeness) (a a' : Annotation) : Prop where
  rule : a.rule = a'.rule
  justification : a.justification = a'.justification
  span : a.span.Like φ a'.span

mutual

/-- The nodes have one shape, and texts and offsets that may stand for each other. -/
inductive Node.Like (φ : Likeness) : Node → Node → Prop
  | literal {value value' : String} {span span' : Span} (hvalue : φ.text value value')
      (hspan : span.Like φ span') : Node.Like φ (.literal value span) (.literal value' span')
  | expandable {value value' : String} {holes holes' : List Node} {span span' : Span}
      (hvalue : φ.text value value') (hholes : Forall₂ (Node.Like φ) holes holes')
      (hspan : span.Like φ span') :
      Node.Like φ (.expandable value holes span) (.expandable value' holes' span')
  | reference {v v' : Variable} (hv : v.Like φ v') : Node.Like φ (.reference v) (.reference v')
  | typeLiteral {name name' : String} {span span' : Span} (hname : φ.text name name')
      (hspan : span.Like φ span') : Node.Like φ (.typeLiteral name span) (.typeLiteral name' span')
  | assignment {target target' value value' : Node} {op : AssignOp} {span span' : Span}
      (htarget : Node.Like φ target target') (hvalue : Node.Like φ value value')
      (hspan : span.Like φ span') :
      Node.Like φ (.assignment target value op span) (.assignment target' value' op span')
  | binary {op : BinaryOp} {left left' right right' : Node} {span span' : Span}
      (hleft : Node.Like φ left left') (hright : Node.Like φ right right')
      (hspan : span.Like φ span') :
      Node.Like φ (.binary op left right span) (.binary op left' right' span')
  | arrayLiteral {elements elements' : List Node} {span span' : Span}
      (helements : Forall₂ (Node.Like φ) elements elements') (hspan : span.Like φ span') :
      Node.Like φ (.arrayLiteral elements span) (.arrayLiteral elements' span')
  | paren {inner inner' : Node} {span span' : Span} (hinner : Node.Like φ inner inner')
      (hspan : span.Like φ span') : Node.Like φ (.paren inner span) (.paren inner' span')
  | subExpression {statements statements' : List Node} {span span' : Span}
      (hstatements : Forall₂ (Node.Like φ) statements statements') (hspan : span.Like φ span') :
      Node.Like φ (.subExpression statements span) (.subExpression statements' span')
  | cast {typeName typeName' : String} {operand operand' : Node} {span span' : Span}
      (hname : φ.text typeName typeName') (hoperand : Node.Like φ operand operand')
      (hspan : span.Like φ span') :
      Node.Like φ (.cast typeName operand span) (.cast typeName' operand' span')
  | command {c c' : Command} (hc : Command.Like φ c c') : Node.Like φ (.command c) (.command c')
  | pipeline {elements elements' : List Node} {span span' : Span}
      (helements : Forall₂ (Node.Like φ) elements elements') (hspan : span.Like φ span') :
      Node.Like φ (.pipeline elements span) (.pipeline elements' span')
  | invocation {i i' : Invocation} (hi : Invocation.Like φ i i') :
      Node.Like φ (.invocation i) (.invocation i')
  | member {target target' name name' : Node} {isStatic : Bool} {span span' : Span}
      (htarget : Node.Like φ target target') (hname : Node.Like φ name name')
      (hspan : span.Like φ span') :
      Node.Like φ (.member target name isStatic span) (.member target' name' isStatic span')
  | scriptBlock {b b' : Block} (hb : Block.Like φ b b') :
      Node.Like φ (.scriptBlock b) (.scriptBlock b')
  | function {name name' : String} {span span' : Span} {body body' : Block}
      (hname : φ.text name name') (hspan : span.Like φ span') (hbody : Block.Like φ body body') :
      Node.Like φ (.function name span body) (.function name' span' body')
  | conditional {clauses clauses' : List Clause} {otherwise otherwise' : Option (List Node)}
      {span span' : Span} (hclauses : Forall₂ (Clause.Like φ) clauses clauses')
      (hotherwise : Option.Rel (Forall₂ (Node.Like φ)) otherwise otherwise')
      (hspan : span.Like φ span') :
      Node.Like φ (.conditional clauses otherwise span) (.conditional clauses' otherwise' span')
  | forEach {item item' : Variable} {iterable iterable' : Node} {body body' : List Node}
      {span span' : Span} (hitem : item.Like φ item') (hiterable : Node.Like φ iterable iterable')
      (hbody : Forall₂ (Node.Like φ) body body') (hspan : span.Like φ span') :
      Node.Like φ (.forEach item iterable body span) (.forEach item' iterable' body' span')
  | unsupported {kind : String} {span span' : Span} {children children' : List Node}
      (hspan : span.Like φ span') (hchildren : Forall₂ (Node.Like φ) children children') :
      Node.Like φ (.unsupported kind span children) (.unsupported kind span' children')

inductive Command.Like (φ : Likeness) : Command → Command → Prop
  | mk {name name' : Node} {elements elements' : List Element} {span span' : Span}
      (hname : Node.Like φ name name') (helements : Forall₂ (Element.Like φ) elements elements')
      (hspan : span.Like φ span') : Command.Like φ ⟨name, elements, span⟩ ⟨name', elements', span'⟩

inductive Element.Like (φ : Likeness) : Element → Element → Prop
  | argument {value value' : Node} (hvalue : Node.Like φ value value') :
      Element.Like φ (.argument value) (.argument value')
  | parameter {name name' : String} {bound bound' : Option Node} {span span' : Span}
      (hname : φ.text name name') (hbound : Option.Rel (Node.Like φ) bound bound')
      (hspan : span.Like φ span') :
      Element.Like φ (.parameter name bound span) (.parameter name' bound' span')

inductive Invocation.Like (φ : Likeness) : Invocation → Invocation → Prop
  | mk {target target' name name' : Node} {arguments arguments' : List Node} {isStatic : Bool}
      {span span' : Span} (htarget : Node.Like φ target target') (hname : Node.Like φ name name')
      (harguments : Forall₂ (Node.Like φ) arguments arguments') (hspan : span.Like φ span') :
      Invocation.Like φ ⟨target, name, arguments, isStatic, span⟩
        ⟨target', name', arguments', isStatic, span'⟩

inductive Clause.Like (φ : Likeness) : Clause → Clause → Prop
  | mk {condition condition' : Node} {body body' : List Node}
      (hcondition : Node.Like φ condition condition') (hbody : Forall₂ (Node.Like φ) body body') :
      Clause.Like φ ⟨condition, body⟩ ⟨condition', body'⟩

inductive Param.Like (φ : Likeness) : Param → Param → Prop
  | mk {name name' : String} {span span' : Span} {default? default?' : Option Node}
      (hname : φ.text name name') (hspan : span.Like φ span')
      (hdefault : Option.Rel (Node.Like φ) default? default?') :
      Param.Like φ ⟨name, span, default?⟩ ⟨name', span', default?'⟩

/-- The suppressions of alike blocks are of the same rules. -/
inductive Block.Like (φ : Likeness) : Block → Block → Prop
  | mk {span span' : Span} {params params' : List Param}
      {annotations annotations' : List Annotation} {statements statements' : List Node}
      (hspan : span.Like φ span') (hparams : Forall₂ (Param.Like φ) params params')
      (hannotations : Forall₂ (fun a a' => a.Like φ a') annotations annotations')
      (hstatements : Forall₂ (Node.Like φ) statements statements') :
      Block.Like φ ⟨span, params, annotations, statements⟩
        ⟨span', params', annotations', statements'⟩

end

section
variable {φ : Likeness}

/-! ## Parts of alike nodes -/

theorem Element.Like.operand? {e e' : Element} (h : e.Like φ e') :
    Option.Rel (Node.Like φ) e.operand? e'.operand? := by
  cases h with
  | argument hvalue => exact .some hvalue
  | parameter _ hbound _ => exact hbound

namespace Node.Like

variable {n n' : Node}

theorem span (h : n.Like φ n') : n.span.Like φ n'.span := by
  cases h with
  | reference hv => exact hv.span
  | command hc =>
    cases hc with
    | mk _ _ hspan => exact hspan
  | invocation hi =>
    cases hi with
    | mk _ _ _ hspan => exact hspan
  | scriptBlock hb =>
    cases hb with
    | mk hspan _ _ _ => exact hspan
  | _ => assumption

theorem children (h : n.Like φ n') : Forall₂ (Node.Like φ) n.children n'.children := by
  cases h with
  | literal | reference | typeLiteral | scriptBlock | function => exact .nil
  | expandable _ hs _ | arrayLiteral hs _ | subExpression hs _ | pipeline hs _
  | unsupported _ hs => exact hs
  | assignment h₁ h₂ _ | binary h₁ h₂ _ | member h₁ h₂ _ => exact .cons h₁ (.cons h₂ .nil)
  | paren h _ | cast _ h _ => exact .cons h .nil
  | command hc =>
    cases hc with
    | mk hname helements _ =>
      exact .cons hname (List.rel_filterMap (fun _ _ he => he.operand?) helements)
  | invocation hi =>
    cases hi with
    | mk htarget hname harguments _ => exact .cons htarget (.cons hname harguments)
  | conditional hclauses hotherwise _ =>
    refine List.rel_append (forall₂_flatMap hclauses fun c c' hc => ?_) ?_
    · cases hc with
      | mk hcondition hbody => exact .cons hcondition hbody
    · cases hotherwise with
      | none => exact .nil
      | some hbody => exact hbody
  | forEach _ hiterable hbody _ => exact .cons hiterable hbody

/-- Induction over two alike nodes of one scope. -/
@[elab_as_elim]
theorem induction_children {P : Node → Node → Prop} (h : n.Like φ n')
    (step : ∀ m m', m.Like φ m' → Forall₂ P m.children m'.children → P m m') : P n n' := by
  induction n using Node.induction_children generalizing n' with
  | step n ih => exact step n n' h (forall₂_of_mem h.children fun c hc c' hcc => ih c hc hcc)

theorem within (h : n.Like φ n') : Forall₂ (Node.Like φ) n.within n'.within := by
  refine induction_children h fun m m' hm ih => ?_
  rw [within_eq, within_eq]
  exact .cons hm (forall₂_flatMap ih fun _ _ hc => hc)

end Node.Like

/-! ## Alike bindings -/

structure Event.Like (φ : Likeness) (e e' : Event) : Prop where
  since : φ.offset e.since e'.since
  binding : e.binding = e'.binding

theorem History.record_like {h h' : History} (hh : Forall₂ (Event.Like φ) h h')
    {since since' : UInt32} (hs : φ.offset since since') (x : Binding) :
    Forall₂ (Event.Like φ) (h.record since x) (h'.record since' x) := by
  rw [record_eq, record_eq]
  refine List.rel_append hh (.cons ?_ .nil)
  have hlast := rel_getLast? hh
  unfold next
  generalize h.getLast? = last, h'.getLast? = last' at hlast ⊢
  cases hlast with
  | none => exact ⟨hs, rfl⟩
  | some hlast =>
    refine ⟨?_, ?_⟩
    · simp only [φ.lt_iff hs hlast.since]
      split
      · exact hlast.since
      · exact hs
    · simp only [hlast.binding]

theorem History.bindingAt?_like {h h' : History} (hh : Forall₂ (Event.Like φ) h h')
    {offset offset' : UInt32} (ho : φ.offset offset offset') :
    h.bindingAt? offset = h'.bindingAt? offset' := by
  unfold bindingAt?
  have hseen : Forall₂ (Event.Like φ) (h.takeWhile (·.since ≤ offset))
      (h'.takeWhile (·.since ≤ offset')) :=
    forall₂_takeWhile hh fun e e' he => decide_eq_decide.2 (φ.le_iff he.since ho)
  exact map_eq_of_rel (rel_getLast? hseen) fun _ _ he => he.binding

/-- The bindings record the same under each key, at offsets that may stand for each other. -/
def Bindings.Like (φ : Likeness) (b b' : Bindings) : Prop :=
  ∀ key, Forall₂ (Event.Like φ) (b.history key) (b'.history key)

namespace Variable.Like

variable {v v' : Variable}

theorem key_eq (h : v.Like φ v') : v.key = v'.key := Variable.key_eq (φ.lower_eq h.name)

theorem isQualified_eq (h : v.Like φ v') : v.isQualified = v'.isQualified :=
  Variable.isQualified_eq (φ.lower_eq h.name)

theorem isAutomatic_eq (h : v.Like φ v') : v.isAutomatic = v'.isAutomatic :=
  Variable.isAutomatic_eq (φ.lower_eq h.name)

end Variable.Like

namespace Bindings.Like

variable {b b' : Bindings} {v v' : Variable}

theorem empty : Bindings.Like φ .empty .empty := fun _ => .nil

theorem record (h : b.Like φ b') (key : String) {since since' : UInt32}
    (hs : φ.offset since since') (x : Binding) :
    (b.record key since x).Like φ (b'.record key since' x) := by
  intro k
  by_cases hk : k = key
  · subst hk
    rw [history_record_self, history_record_self]
    exact History.record_like (h k) hs x
  · rw [history_record_ne _ hk, history_record_ne _ hk]
    exact h k

theorem binding?_eq (h : b.Like φ b') (hv : v.Like φ v') : b.binding? v = b'.binding? v' := by
  unfold binding?
  rw [hv.isQualified_eq, hv.key_eq]
  split
  · rfl
  · exact History.bindingAt?_like (h v'.key) hv.span.start

theorem constancy_eq (h : b.Like φ b') (hv : v.Like φ v') : b.constancy v = b'.constancy v' := by
  unfold constancy
  rw [h.binding?_eq hv]

theorem isEscaped_eq (h : b.Like φ b') (hv : v.Like φ v') : b.isEscaped v = b'.isEscaped v' := by
  unfold isEscaped
  rw [h.binding?_eq hv]

end Bindings.Like

/-! ## Constancy and marks -/

namespace Node.Like

variable {n n' : Node} {b b' : Bindings}

theorem isCommand_eq (h : n.Like φ n') : n.isCommand = n'.isCommand := by
  cases h <;> rfl

/-- Alike nodes are of one constancy under alike bindings. -/
theorem constancy_eq (h : n.Like φ n') (hb : b.Like φ b') : n.constancy b = n'.constancy b' := by
  refine induction_children h fun m m' hm ih => ?_
  cases hm with
  | expandable =>
    rw [constancy_expandable, constancy_expandable]
    exact congrArg _ (map_eq_of_forall₂ ih)
  | arrayLiteral =>
    rw [constancy_arrayLiteral, constancy_arrayLiteral]
    exact congrArg _ (map_eq_of_forall₂ ih)
  | reference hv =>
    rw [constancy_reference, constancy_reference, hv.isAutomatic_eq, hb.constancy_eq hv]
  | assignment =>
    obtain _ | ⟨-, _ | ⟨hvalue, -⟩⟩ := ih
    rw [constancy.eq_def, constancy.eq_def b' (.assignment _ _ _ _)]
    exact hvalue
  | binary =>
    obtain _ | ⟨hleft, _ | ⟨hright, -⟩⟩ := ih
    rw [constancy_binary, constancy_binary, hleft, hright]
  | paren =>
    obtain _ | ⟨hinner, -⟩ := ih
    rw [constancy_paren, constancy_paren, hinner]
  | cast =>
    obtain _ | ⟨hoperand, -⟩ := ih
    rw [constancy_cast, constancy_cast, hoperand]
  | pipeline helements =>
    rw [constancy.eq_def, constancy.eq_def b' (.pipeline _ _)]
    cases helements with
    | nil => rfl
    | cons hsingle hrest =>
      obtain _ | ⟨hfirst, -⟩ := ih
      cases hrest with
      | nil => simp only [hsingle.isCommand_eq, hfirst]
      | cons => rfl
  | _ => rw [constancy.eq_def, constancy.eq_def b' (_ : Node)]

theorem literal? (h : n.Like φ n') : Option.Rel φ.text n.literal? n'.literal? := by
  cases h with
  | literal hvalue _ => exact .some hvalue
  | _ => exact .none

theorem fixedText? (h : n.Like φ n') : Option.Rel φ.text n.fixedText? n'.fixedText? := by
  cases h with
  | literal hvalue _ => exact .some hvalue
  | expandable hvalue hholes _ =>
    cases hholes with
    | nil => exact .some hvalue
    | cons => exact .none
  | _ => exact .none

theorem pattern? (h : n.Like φ n') : Option.Rel φ.text n.pattern? n'.pattern? := by
  cases h with
  | arrayLiteral helements _ => exact rel_bind (rel_head? helements) fun _ _ he => he.fixedText?
  | literal hvalue hspan => exact (Node.Like.literal hvalue hspan).fixedText?
  | expandable hvalue hholes hspan => exact (Node.Like.expandable hvalue hholes hspan).fixedText?
  | _ => exact .none

end Node.Like

/-- Patterns of quotes hold no letters. -/
theorem Likeness.isQuotePattern_eq {o o' : Option String} (h : Option.Rel φ.text o o') :
    o.any isQuotePattern = o'.any isQuotePattern :=
  any_eq_of_rel h fun _ _ hs => φ.eq_of_caseless caseless_isQuotePattern hs

theorem Invocation.Like.name? {i i' : Invocation} (h : i.Like φ i') :
    Option.Rel φ.text i.name? i'.name? := by
  cases h with
  | mk _ hname _ _ => exact hname.literal?

theorem Invocation.Like.arguments {i i' : Invocation} (h : i.Like φ i') :
    Forall₂ (Node.Like φ) i.arguments i'.arguments := by
  cases h with
  | mk _ _ harguments _ => exact harguments

theorem Invocation.Like.target {i i' : Invocation} (h : i.Like φ i') :
    i.target.Like φ i'.target := by
  cases h with
  | mk htarget _ _ _ => exact htarget

namespace Node.Like

variable {n n' : Node} {b b' : Bindings}

theorem escapedOperand? (h : n.Like φ n') :
    Option.Rel (Node.Like φ) n.escapedOperand? n'.escapedOperand? := by
  refine induction_children h fun m m' hm ih => ?_
  cases hm with
  | @invocation i i' hi =>
    have hname := hi.name?
    have hfirst := rel_head? hi.arguments
    have hquotes := φ.isQuotePattern_eq (rel_bind hfirst fun _ _ ha => ha.fixedText?)
    simp only [Node.escapedOperand?, hi.arguments.length_eq, hquotes]
    generalize i.name? = name, i'.name? = name' at hname ⊢
    cases hname with
    | none => exact .none
    | some hname =>
      simp only [φ.lower_eq hname]
      split
      · exact hfirst
      · split
        · exact .some hi.target
        · exact .none
  | @binary op left left' right right' span span' hleft hright hspan =>
    cases op with
    | replace =>
      simp only [Node.escapedOperand?, φ.isQuotePattern_eq hright.pattern?]
      split
      · exact .some hleft
      · exact .none
    | _ => exact .none
  | paren =>
    obtain _ | ⟨hinner, -⟩ := ih
    exact hinner
  | _ => exact .none

theorem isEscapedHere_eq (h : n.Like φ n') (hb : b.Like φ b') :
    n.isEscapedHere b = n'.isEscapedHere b' := by
  have hoperand := any_eq_of_rel (f := fun m => (m.constancy b).isVarying)
    (g := fun m => (m.constancy b').isVarying) h.escapedOperand? fun m m' hm => by
      rw [hm.constancy_eq hb]
  unfold isEscapedHere
  rw [hoperand]
  congr 1
  cases h with
  | reference hv => exact hb.isEscaped_eq hv
  | _ => rfl

/-- Alike nodes carry the same marks under alike bindings. -/
theorem carriesEscaped_eq (h : n.Like φ n') (hb : b.Like φ b') :
    n.carriesEscaped b = n'.carriesEscaped b' := by
  unfold carriesEscaped
  exact any_eq_of_forall₂ h.within fun _ _ hm => hm.isEscapedHere_eq hb

/-! ## Assignments and steps -/

theorem baseVariable? (h : n.Like φ n') :
    Option.Rel (Variable.Like φ) n.baseVariable? n'.baseVariable? := by
  refine induction_children h fun m m' hm ih => ?_
  cases hm with
  | reference hv => exact .some hv
  | member =>
    obtain _ | ⟨htarget, -⟩ := ih
    exact htarget
  | invocation hi =>
    cases hi with
    | mk =>
      obtain _ | ⟨htarget, -⟩ := ih
      exact htarget
  | paren =>
    obtain _ | ⟨hinner, -⟩ := ih
    exact hinner
  | _ => exact .none

theorem targetKeys_eq (h : n.Like φ n') : n.targetKeys = n'.targetKeys := by
  refine induction_children h fun m m' hm ih => ?_
  cases hm with
  | reference hv =>
    rw [targetKeys.eq_def, targetKeys.eq_def (.reference _)]
    simp only [hv.isQualified_eq, hv.key_eq]
  | cast =>
    obtain _ | ⟨hoperand, -⟩ := ih
    rw [targetKeys.eq_def, targetKeys.eq_def (.cast _ _ _)]
    exact hoperand
  | arrayLiteral =>
    rw [targetKeys_arrayLiteral, targetKeys_arrayLiteral]
    exact flatMap_eq_of_forall₂ ih
  | @member target target' name name' isStatic span span' htarget hname hspan =>
    have hbase := htarget.baseVariable?
    rw [targetKeys.eq_def, targetKeys.eq_def (.member _ _ _ _)]
    dsimp only
    generalize target.baseVariable? = v, target'.baseVariable? = v' at hbase ⊢
    cases hbase with
    | none => rfl
    | some hv => simp only [hv.isQualified_eq, hv.key_eq]
  | _ => rw [targetKeys.eq_def, targetKeys.eq_def (_ : Node)]

theorem assignsHere_eq (h : n.Like φ n') : n.assignsHere = n'.assignsHere := by
  cases h with
  | assignment htarget _ _ => exact htarget.targetKeys_eq
  | forEach hitem _ _ _ => simp only [assignsHere, hitem.isQualified_eq, hitem.key_eq]
  | _ => rfl

theorem assigned_eq (h : n.Like φ n') : n.assigned = n'.assigned := by
  unfold assigned
  exact flatMap_eq_of_forall₂ (h.within.imp fun _ _ hm => hm.assignsHere_eq)

end Node.Like

inductive Step.Like (φ : Likeness) : Step → Step → Prop
  | declare {key : String} {since since' : UInt32} (hs : φ.offset since since') :
      Step.Like φ (.declare key since) (.declare key since')
  | assign {target target' value value' : Node} {op : AssignOp} {since since' : UInt32}
      (htarget : target.Like φ target') (hvalue : value.Like φ value')
      (hs : φ.offset since since') :
      Step.Like φ (.assign target value op since) (.assign target' value' op since')

theorem Node.loopEntry_like {body body' : List Node} (h : Forall₂ (Node.Like φ) body body')
    {entry entry' : UInt32} (he : φ.offset entry entry') :
    Forall₂ (Step.Like φ) (loopEntry body entry) (loopEntry body' entry') := by
  have hkeys : body.flatMap assigned = body'.flatMap assigned :=
    flatMap_eq_of_forall₂ (h.imp fun _ _ hm => hm.assigned_eq)
  unfold loopEntry
  rw [hkeys, List.forall₂_map_left_iff, List.forall₂_map_right_iff, List.forall₂_same]
  exact fun key _ => .declare he

/-- Alike nodes take alike steps. -/
theorem Node.Like.steps {n n' : Node} (h : n.Like φ n') :
    Forall₂ (Step.Like φ) n.steps n'.steps := by
  refine induction_children h fun m m' hm ih => ?_
  have parts : ∀ {cs cs' : List Node},
      Forall₂ (fun c c' => Forall₂ (Step.Like φ) c.steps c'.steps) cs cs' →
      Forall₂ (Step.Like φ) (cs.flatMap Node.steps) (cs'.flatMap Node.steps) :=
    fun hcs => forall₂_flatMap hcs fun _ _ hc => hc
  cases hm with
  | assignment htarget hvalue hspan =>
    obtain _ | ⟨-, _ | ⟨hsteps, -⟩⟩ := ih
    rw [steps_assignment, steps_assignment]
    exact List.rel_append hsteps (.cons (.assign htarget hvalue hspan.stop) .nil)
  | @forEach item item' iterable iterable' body body' span span' hitem hiterable hbody hspan =>
    obtain _ | ⟨hfirst, hrest⟩ := ih
    have hentry := hiterable.span.stop
    rw [steps_loop rfl, steps_loop (n := .forEach item' iterable' body' span') rfl, hitem.key_eq]
    exact List.rel_append (List.rel_append hfirst (.cons (.declare hentry) .nil))
      (List.rel_append (loopEntry_like hbody hentry) (parts hrest))
  | @unsupported kind span span' cs cs' hspan hcs =>
    rw [steps_loop rfl, steps_loop (n := .unsupported kind span' cs') rfl]
    exact List.rel_append (loopEntry_like hcs hspan.start) (parts ih)
  | _ =>
    rw [steps_passive rfl, steps_passive rfl]
    exact parts ih

namespace Bindings.Like

variable {b b' : Bindings}

theorem bind (h : b.Like φ b') {target target' : Node} (ht : target.Like φ target')
    {since since' : UInt32} (hs : φ.offset since since') (x : Binding) :
    (b.bind since x target).Like φ (b'.bind since' x target') := by
  suffices hall : ∀ b b' : Bindings, b.Like φ b' →
      (b.bind since x target).Like φ (b'.bind since' x target') from hall b b' h
  clear h
  refine Node.Like.induction_children ht fun m m' hm ih b b' h => ?_
  cases hm with
  | reference hv =>
    rw [bind.eq_def, bind.eq_def b' since' x (.reference _)]
    simp only [hv.isQualified_eq, hv.key_eq]
    split
    · exact h
    · exact h.record _ hs x
  | cast =>
    obtain _ | ⟨hoperand, -⟩ := ih
    rw [bind.eq_def, bind.eq_def b' since' x (.cast _ _ _)]
    exact hoperand b b' h
  | arrayLiteral =>
    rw [bind_arrayLiteral, bind_arrayLiteral]
    exact List.rel_foldl (fun b b' h e e' he => he b b' h) h ih
  | @member target target' name name' isStatic span span' htarget hname hspan =>
    have hbase := htarget.baseVariable?
    rw [bind.eq_def, bind.eq_def b' since' x (.member _ _ _ _)]
    dsimp only
    generalize target.baseVariable? = v, target'.baseVariable? = v' at hbase ⊢
    cases hbase with
    | none => exact h
    | some hv =>
      simp only [hv.isQualified_eq, hv.key_eq]
      split
      · exact h
      · exact h.record _ hs _
  | _ =>
    rw [bind.eq_def, bind.eq_def b' since' x (_ : Node)]
    exact h

theorem step (h : b.Like φ b') {s s' : Step} (hs : s.Like φ s') :
    (b.step s).Like φ (b'.step s') := by
  cases hs with
  | declare hs => exact h.record _ hs _
  | @assign target target' value value' op since since' htarget hvalue hs =>
    cases op with
    | assign =>
      simp only [Bindings.step, hvalue.constancy_eq h, hvalue.carriesEscaped_eq h]
      exact h.bind htarget hs _
    | compound =>
      simp only [Bindings.step, hvalue.carriesEscaped_eq h]
      exact h.bind htarget hs _

theorem run (h : b.Like φ b') {steps steps' : List Step}
    (hs : Forall₂ (Step.Like φ) steps steps') : (b.run steps).Like φ (b'.run steps') :=
  List.rel_foldl (fun _ _ hb _ _ hs => hb.step hs) h hs

end Bindings.Like

/-! ## Alike blocks -/

namespace Block.Like

variable {b b' : Block}

theorem span (h : b.Like φ b') : b.span.Like φ b'.span := by
  cases h with
  | mk hspan _ _ _ => exact hspan

theorem nodes (h : b.Like φ b') : Forall₂ (Node.Like φ) b.nodes b'.nodes := by
  cases h with
  | mk _ hparams _ hstatements =>
    refine List.rel_append (List.rel_filterMap (fun p p' hp => ?_) hparams) hstatements
    cases hp with
    | mk _ _ hdefault => exact hdefault

theorem steps (h : b.Like φ b') : Forall₂ (Step.Like φ) b.steps b'.steps := by
  cases h with
  | mk hspan hparams _ hstatements =>
    rw [steps_eq, steps_eq]
    refine List.rel_append (List.rel_map (fun p p' hp => ?_) hparams)
      (forall₂_flatMap hstatements fun _ _ hn => hn.steps)
    cases hp with
    | mk hname _ _ =>
      simp only [φ.lower_eq hname]
      exact .declare hspan.start

/-- **Alike blocks bind alike.** -/
theorem bindings (h : b.Like φ b') : b.bindings.Like φ b'.bindings := by
  rw [bindings_eq, bindings_eq]
  exact Bindings.Like.empty.run h.steps

end Block.Like

end

end ScriptTaint
