import ScriptTaint.Proofs.ReportLikeness

/-!
# Files with other texts and offsets

`SyntaxTree.relabel` exchanges the texts that may be written in any letter case, and the offsets of
all spans. The result is like the file it came from (`SyntaxTree.like_relabel`), as far as the
exchange respects letter case and the order of the offsets in the file (`SyntaxTree.offsets`). Two
laws follow. Files that differ in letter case only have the same findings
(`letterCase_irrelevant`). A file whose offsets are exchanged in their order has the findings of the
file, at the new offsets (`offsetOrder_suffices`).
-/

set_option autoImplicit false

namespace ScriptTaint

open List (Forall₂)

/-- What becomes of texts and of offsets. -/
structure Relabelling where
  text : String → String
  offset : UInt32 → UInt32

def Span.relabel (g : Relabelling) (s : Span) : Span := ⟨g.offset s.start, g.offset s.stop⟩

def Variable.relabel (g : Relabelling) (v : Variable) : Variable :=
  ⟨g.text v.name, v.span.relabel g⟩

/-- Rules are named exactly, so their names stay. -/
def Annotation.relabel (g : Relabelling) (a : Annotation) : Annotation :=
  { a with span := a.span.relabel g }

mutual

/-- The node with other texts and offsets. The kind of what is not modelled stays. -/
def Node.relabel (g : Relabelling) : Node → Node
  | .literal value span => .literal (g.text value) (span.relabel g)
  | .expandable value holes span =>
    .expandable (g.text value) (Node.relabels g holes) (span.relabel g)
  | .reference v => .reference (v.relabel g)
  | .typeLiteral name span => .typeLiteral (g.text name) (span.relabel g)
  | .assignment target value op span =>
    .assignment (target.relabel g) (value.relabel g) op (span.relabel g)
  | .binary op left right span =>
    .binary op (left.relabel g) (right.relabel g) (span.relabel g)
  | .arrayLiteral elements span => .arrayLiteral (Node.relabels g elements) (span.relabel g)
  | .paren inner span => .paren (inner.relabel g) (span.relabel g)
  | .subExpression statements span =>
    .subExpression (Node.relabels g statements) (span.relabel g)
  | .cast typeName operand span =>
    .cast (g.text typeName) (operand.relabel g) (span.relabel g)
  | .command c => .command (c.relabel g)
  | .pipeline elements span => .pipeline (Node.relabels g elements) (span.relabel g)
  | .invocation i => .invocation (i.relabel g)
  | .member target name isStatic span =>
    .member (target.relabel g) (name.relabel g) isStatic (span.relabel g)
  | .scriptBlock b => .scriptBlock (b.relabel g)
  | .function name span body => .function (g.text name) (span.relabel g) (body.relabel g)
  | .conditional clauses otherwise span =>
    .conditional (Clause.relabels g clauses) (Node.relabelBody g otherwise) (span.relabel g)
  | .forEach item iterable body span =>
    .forEach (item.relabel g) (iterable.relabel g) (Node.relabels g body) (span.relabel g)
  | .unsupported kind span children =>
    .unsupported kind (span.relabel g) (Node.relabels g children)

def Node.relabels (g : Relabelling) : List Node → List Node
  | [] => []
  | n :: ns => n.relabel g :: Node.relabels g ns

def Node.relabelBody (g : Relabelling) : Option (List Node) → Option (List Node)
  | none => none
  | some ns => some (Node.relabels g ns)

def Command.relabel (g : Relabelling) : Command → Command
  | ⟨name, elements, span⟩ => ⟨name.relabel g, Element.relabels g elements, span.relabel g⟩

def Invocation.relabel (g : Relabelling) : Invocation → Invocation
  | ⟨target, name, arguments, isStatic, span⟩ =>
    ⟨target.relabel g, name.relabel g, Node.relabels g arguments, isStatic, span.relabel g⟩

def Element.relabel (g : Relabelling) : Element → Element
  | .argument value => .argument (value.relabel g)
  | .parameter name none span => .parameter (g.text name) none (span.relabel g)
  | .parameter name (some bound) span =>
    .parameter (g.text name) (some (bound.relabel g)) (span.relabel g)

def Element.relabels (g : Relabelling) : List Element → List Element
  | [] => []
  | e :: es => e.relabel g :: Element.relabels g es

def Clause.relabel (g : Relabelling) : Clause → Clause
  | ⟨condition, body⟩ => ⟨condition.relabel g, Node.relabels g body⟩

def Clause.relabels (g : Relabelling) : List Clause → List Clause
  | [] => []
  | c :: cs => c.relabel g :: Clause.relabels g cs

def Param.relabel (g : Relabelling) : Param → Param
  | ⟨name, span, none⟩ => ⟨g.text name, span.relabel g, none⟩
  | ⟨name, span, some value⟩ => ⟨g.text name, span.relabel g, some (value.relabel g)⟩

def Param.relabels (g : Relabelling) : List Param → List Param
  | [] => []
  | p :: ps => p.relabel g :: Param.relabels g ps

def Block.relabel (g : Relabelling) : Block → Block
  | ⟨span, params, annotations, statements⟩ =>
    ⟨span.relabel g, Param.relabels g params, annotations.map (·.relabel g),
      Node.relabels g statements⟩

end

attribute [local simp] Node.relabel

/-- The file with other texts and offsets. Its name and its lines stay. -/
def SyntaxTree.relabel (g : Relabelling) (t : SyntaxTree) : SyntaxTree :=
  { t with root := t.root.relabel g }

section
variable (g : Relabelling)

@[simp] theorem Node.relabels_eq_map : ∀ ns : List Node, Node.relabels g ns = ns.map (·.relabel g)
  | [] => by simp [Node.relabels]
  | n :: ns => by simp [Node.relabels, Node.relabels_eq_map ns]

@[simp] theorem Element.relabels_eq_map :
    ∀ es : List Element, Element.relabels g es = es.map (·.relabel g)
  | [] => by simp [Element.relabels]
  | e :: es => by simp [Element.relabels, Element.relabels_eq_map es]

@[simp] theorem Clause.relabels_eq_map :
    ∀ cs : List Clause, Clause.relabels g cs = cs.map (·.relabel g)
  | [] => by simp [Clause.relabels]
  | c :: cs => by simp [Clause.relabels, Clause.relabels_eq_map cs]

@[simp] theorem Param.relabels_eq_map :
    ∀ ps : List Param, Param.relabels g ps = ps.map (·.relabel g)
  | [] => by simp [Param.relabels]
  | p :: ps => by simp [Param.relabels, Param.relabels_eq_map ps]

end

/-! ## The offsets of a file -/

/-- The span of a parameter given by name. -/
def Element.span? : Element → Option Span
  | .argument _ => none
  | .parameter _ _ span => some span

/-- The spans of a block, of its parameters and of its annotations. -/
def Block.ownSpans (b : Block) : List Span :=
  b.span :: (b.params.map (·.span) ++ b.annotations.map (·.span))

/-- The spans of a node, apart from those of the nodes inside it. -/
def Node.ownSpans (n : Node) : List Span :=
  n.span ::
    match n with
    | .command c => c.elements.filterMap Element.span?
    | .scriptBlock b | .function _ _ b => b.ownSpans
    | .forEach item _ _ _ => [item.span]
    | _ => []

/-- All spans of a file. -/
def SyntaxTree.spans (t : SyntaxTree) : List Span :=
  t.root.ownSpans ++ t.positions.flatMap (·.node.ownSpans)

/-- The offsets that occur in the spans of a file. -/
def SyntaxTree.offsets (t : SyntaxTree) : List UInt32 := t.spans.flatMap fun s => [s.start, s.stop]

section
variable {φ : Likeness} {g : Relabelling}

/-! ## The likeness of what is relabelled -/

section block
variable (htext : ∀ s, φ.text s (g.text s)) {b : Block}
  (hspans : ∀ s ∈ b.ownSpans, s.Like φ (s.relabel g))
  (hnodes : ∀ n ∈ b.nodes, n.Like φ (n.relabel g))

include htext hspans hnodes

/-- A block is like what it becomes if its own spans and the nodes in it are. -/
theorem Block.like_relabel_of : b.Like φ (b.relabel g) := by
  obtain ⟨span, params, annotations, statements⟩ := b
  simp only [ownSpans, List.mem_cons, List.mem_append, List.mem_map] at hspans
  simp only [nodes, List.mem_append, List.mem_filterMap] at hnodes
  rw [Block.relabel, Param.relabels_eq_map, Node.relabels_eq_map]
  refine .mk (hspans _ (.inl rfl)) (forall₂_map_right fun p hp => ?_)
    (forall₂_map_right fun a ha => ?_) (forall₂_map_right fun n hn => hnodes n (.inr hn))
  · have hspan := hspans _ (.inr (.inl ⟨p, hp, rfl⟩))
    obtain ⟨name, pspan, default?⟩ := p
    cases default? with
    | none => exact .mk (htext name) hspan .none
    | some value => exact .mk (htext name) hspan (.some (hnodes value (.inl ⟨_, hp, rfl⟩)))
  · exact ⟨rfl, rfl, hspans _ (.inr (.inr ⟨a, ha, rfl⟩))⟩

end block

section node
variable (htext : ∀ s, φ.text s (g.text s)) {n : Node}

include htext

theorem Element.like_relabel_of {e : Element} (hspan : ∀ s ∈ e.span?, s.Like φ (s.relabel g))
    (hoperand : ∀ n ∈ e.operand?, n.Like φ (n.relabel g)) : e.Like φ (e.relabel g) := by
  cases e with
  | argument value =>
    rw [Element.relabel]
    exact .argument (hoperand value rfl)
  | parameter name bound span =>
    cases bound with
    | none =>
      rw [Element.relabel]
      exact .parameter (htext name) .none (hspan span rfl)
    | some value =>
      rw [Element.relabel]
      exact .parameter (htext name) (.some (hoperand value rfl)) (hspan span rfl)

/-- A node is like what it becomes if its own spans and the nodes in it are. -/
theorem Node.like_relabel_of (hspans : ∀ s ∈ n.ownSpans, s.Like φ (s.relabel g))
    (hparts : ∀ p ∈ n.parts, p.2.Like φ (p.2.relabel g)) : n.Like φ (n.relabel g) := by
  have hspan : n.span.Like φ (n.span.relabel g) := hspans _ List.mem_cons_self
  have hown : ∀ s ∈ n.ownSpans.tail, s.Like φ (s.relabel g) := fun s hs =>
    hspans s (List.mem_of_mem_tail hs)
  have hnodes : ∀ c ∈ n.parts.map (·.2), c.Like φ (c.relabel g) := by
    intro c hc
    obtain ⟨p, hp, rfl⟩ := List.mem_map.1 hc
    exact hparts p hp
  cases hb : n.block? with
  | some b =>
    rw [map_snd_parts_block hb] at hnodes
    cases n with
    | scriptBlock body =>
      obtain rfl : body = b := Option.some.inj hb
      exact .scriptBlock (Block.like_relabel_of htext hown hnodes)
    | function name span body =>
      obtain rfl : body = b := Option.some.inj hb
      exact .function (htext name) hspan (Block.like_relabel_of htext hown hnodes)
    | _ => cases hb
  | none =>
    rw [map_snd_parts hb] at hnodes
    cases n with
    | scriptBlock | function => cases hb
    | literal value span => exact .literal (htext value) hspan
    | typeLiteral name span => exact .typeLiteral (htext name) hspan
    | reference v => exact .reference ⟨htext v.name, hspan⟩
    | expandable value holes span =>
      rw [relabel, relabels_eq_map]
      exact .expandable (htext value) (forall₂_map_right hnodes) hspan
    | arrayLiteral elements span =>
      rw [relabel, relabels_eq_map]
      exact .arrayLiteral (forall₂_map_right hnodes) hspan
    | subExpression statements span =>
      rw [relabel, relabels_eq_map]
      exact .subExpression (forall₂_map_right hnodes) hspan
    | pipeline elements span =>
      rw [relabel, relabels_eq_map]
      exact .pipeline (forall₂_map_right hnodes) hspan
    | unsupported kind span cs =>
      rw [relabel, relabels_eq_map]
      exact .unsupported hspan (forall₂_map_right hnodes)
    | assignment target value op span =>
      exact .assignment (hnodes target (by simp [children])) (hnodes value (by simp [children]))
        hspan
    | binary op left right span =>
      exact .binary (hnodes left (by simp [children])) (hnodes right (by simp [children])) hspan
    | member target name isStatic span =>
      exact .member (hnodes target (by simp [children])) (hnodes name (by simp [children])) hspan
    | paren inner span => exact .paren (hnodes inner (by simp [children])) hspan
    | cast typeName operand span =>
      exact .cast (htext typeName) (hnodes operand (by simp [children])) hspan
    | forEach item iterable body span =>
      rw [relabel, relabels_eq_map]
      refine .forEach ⟨htext item.name, hown _ (by simp [ownSpans])⟩
        (hnodes iterable (by simp [children])) (forall₂_map_right fun c hc => ?_) hspan
      exact hnodes c (List.mem_cons_of_mem _ hc)
    | command c =>
      obtain ⟨name, elements, span⟩ := c
      rw [relabel, Command.relabel, Element.relabels_eq_map]
      refine .command (.mk (hnodes name (by simp [children]))
        (forall₂_map_right fun e he => ?_) hspan)
      refine Element.like_relabel_of htext (fun s hs => ?_) fun m hm => ?_
      · exact hown s (List.mem_filterMap.2 ⟨e, he, hs⟩)
      · exact hnodes m (List.mem_cons_of_mem _ (List.mem_filterMap.2 ⟨e, he, hm⟩))
    | invocation i =>
      obtain ⟨target, name, arguments, isStatic, span⟩ := i
      rw [relabel, Invocation.relabel, relabels_eq_map]
      refine .invocation (.mk (hnodes target (by simp [children]))
        (hnodes name (by simp [children])) (forall₂_map_right fun m hm => ?_) hspan)
      exact hnodes m (List.mem_cons_of_mem _ (List.mem_cons_of_mem _ hm))
    | conditional clauses otherwise span =>
      rw [relabel, Clause.relabels_eq_map]
      refine .conditional (forall₂_map_right fun c hc => ?_) ?_ hspan
      · have hclause : ∀ m ∈ c.condition :: c.body, m.Like φ (m.relabel g) := fun m hm =>
          hnodes m (List.mem_append_left _ (List.mem_flatMap.2 ⟨c, hc, hm⟩))
        obtain ⟨condition, body⟩ := c
        rw [Clause.relabel, relabels_eq_map]
        exact .mk (hclause condition List.mem_cons_self)
          (forall₂_map_right fun m hm => hclause m (List.mem_cons_of_mem _ hm))
      · cases otherwise with
        | none => exact .none
        | some body =>
          rw [relabelBody, relabels_eq_map]
          exact .some (forall₂_map_right fun m hm => hnodes m (List.mem_append_right _ hm))

theorem Node.like_relabel (n : Node) (scope : Block)
    (h : ∀ q ∈ n.positions scope, ∀ s ∈ q.node.ownSpans, s.Like φ (s.relabel g)) :
    n.Like φ (n.relabel g) := by
  induction n using Node.induction_parts generalizing scope with
  | step n ih =>
    rw [positions_eq] at h
    refine like_relabel_of htext (h _ List.mem_cons_self) fun p hp =>
      ih p hp (n.inner scope) fun q hq s hs => ?_
    have hmem : q.under p.1 ∈ positionsIn (n.inner scope) n.parts :=
      List.mem_flatMap.2 ⟨p, hp, List.mem_map_of_mem hq⟩
    exact h (q.under p.1) (List.mem_cons_of_mem _ hmem) s hs

/-- **A relabelled file is like the file**, if the texts and the offsets that become of those in the
file may stand for them. -/
theorem SyntaxTree.like_relabel (t : SyntaxTree)
    (hoffset : ∀ o ∈ t.offsets, φ.offset o (g.offset o)) : t.Like φ (t.relabel g) := by
  have hspans : ∀ s ∈ t.spans, s.Like φ (s.relabel g) := by
    intro s hs
    have hends : ∀ o ∈ [s.start, s.stop], o ∈ t.offsets := fun o ho =>
      List.mem_flatMap.2 ⟨s, hs, ho⟩
    exact ⟨hoffset _ (hends _ (by simp)), hoffset _ (hends _ (by simp))⟩
  refine ⟨rfl, rfl, Block.like_relabel_of htext (fun s hs => ?_) fun n hn => ?_⟩
  · exact hspans s (List.mem_append_left _ hs)
  · rw [← Block.map_snd_parts] at hn
    obtain ⟨p, hp, rfl⟩ := List.mem_map.1 hn
    refine Node.like_relabel htext p.2 t.root fun q hq s hs => ?_
    have hmem : q.under p.1 ∈ t.positions := List.mem_flatMap.2 ⟨p, hp, List.mem_map_of_mem hq⟩
    exact hspans s (List.mem_append_right _ (List.mem_flatMap.2 ⟨_, hmem, hs⟩))

end node

end

/-! ## Letter case -/

def Report.mapFindings (k : Finding → Finding) (p : Report) : Report :=
  { p with findings := p.findings.map k, suppressed := p.suppressed.map k }

theorem Report.Like.mapFindings_eq {φ : Likeness} {p p' : Report} (h : p.Like φ p')
    {k k' : Finding → Finding} (hk : ∀ f f' : Finding, f.Like φ f' → k f = k' f') :
    p.mapFindings k = p'.mapFindings k' := by
  unfold mapFindings
  rw [h.path, h.faults, map_eq_of_forall₂ (h.findings.imp hk),
    map_eq_of_forall₂ (h.suppressed.imp hk)]

/-- The finding without its message. -/
def Finding.wordless (f : Finding) : Finding := { f with message := "" }

/-- The finding without its line and column. -/
def Finding.placeless (f : Finding) : Finding := { f with line := 0, column := 0 }

/-- The file in lower case, wherever letter case is free. -/
def SyntaxTree.folded (t : SyntaxTree) : SyntaxTree := t.relabel ⟨Text.lower, id⟩

/-- Texts may differ in letter case, and nothing else may differ. -/
def Likeness.letterCase : Likeness where
  text s s' := Text.lower s = Text.lower s'
  offset := Eq
  lower_eq := id
  lt_iff := by
    rintro a _ b _ rfl rfl
    rfl

theorem SyntaxTree.like_folded (t : SyntaxTree) : t.Like .letterCase t.folded :=
  SyntaxTree.like_relabel (fun s => (Text.lower_lower s).symm) t fun _ _ => rfl

theorem Finding.Like.wordless_eq {f f' : Finding} (h : f.Like .letterCase f') :
    f.wordless = f'.wordless := by
  have hspan : f.span = f'.span := by
    rw [Span.mk.injEq]
    exact ⟨h.span.start, h.span.stop⟩
  obtain ⟨hline, hcolumn⟩ := h.place fun _ _ ho => ho
  unfold wordless
  rw [h.ruleId, h.detector, h.severity, h.confidence, hspan, h.file, hline, hcolumn, h.suggestion]

/-- **Letter case is irrelevant.** Take two files that are the same in lower case: literals,
interpolated texts and the names of variables, parameters, types and functions may differ in the
case of ASCII letters, and nothing else differs. Their reports have the same findings and silenced
findings, in the same order, but for the messages, and they define the same aliases. -/
theorem letterCase_irrelevant (cfg : Config) (t t' : SyntaxTree) (h : t.folded = t'.folded) :
    (cfg.roster.report t).mapFindings Finding.wordless =
        (cfg.roster.report t').mapFindings Finding.wordless ∧
      ∀ r : SinkRegistry, t.aliases r = t'.aliases r := by
  have hreport (t : SyntaxTree) : (cfg.roster.report t).mapFindings Finding.wordless =
      (cfg.roster.report t.folded).mapFindings Finding.wordless :=
    (t.like_folded.report cfg.detectors_roster).mapFindings_eq fun _ _ hf => hf.wordless_eq
  constructor
  · rw [hreport, h, ← hreport]
  · intro r
    rw [t.like_folded.aliases_eq, h, ← t'.like_folded.aliases_eq]

/-- A file that defines an alias, and a function that evaluates its parameter under this name. -/
def aliasedEvaluation (command name target call parameter : String) : SyntaxTree where
  path := "run.ps1"
  lineStarts := [0, 30]
  root :=
    { span := ⟨0, 90⟩, params := [], annotations := []
      statements :=
        [.command
          { name := .literal command ⟨0, 9⟩
            elements :=
              [.parameter "Name" (some (.literal name ⟨16, 19⟩)) ⟨10, 15⟩,
               .parameter "Value" (some (.literal target ⟨27, 30⟩)) ⟨20, 26⟩]
            span := ⟨0, 30⟩ },
         .function "Start" ⟨31, 90⟩
          { span := ⟨40, 90⟩, params := [⟨parameter, ⟨44, 46⟩, none⟩], annotations := []
            statements :=
              [.command
                { name := .literal call ⟨60, 63⟩
                  elements := [.argument (.reference ⟨"p", ⟨64, 66⟩⟩)], span := ⟨60, 66⟩ }] }] }

theorem letterCase_irrelevant_aliasedEvaluation :
    let t := aliasedEvaluation "Set-Alias" "run" "iex" "Run" "p"
    let t' := aliasedEvaluation "SET-ALIAS" "RUN" "Iex" "ruN" "P"
    t.folded = t'.folded ∧
      (((Config.roster {}).report t).findings.map fun f => (f.ruleId, f.span)) =
        [("IH001", ⟨60, 66⟩)] ∧
      (((Config.roster {}).report t).mapFindings Finding.wordless =
        ((Config.roster {}).report t').mapFindings Finding.wordless) ∧
      ∀ r : SinkRegistry, t.aliases r = t'.aliases r := by
  intro t t'
  have hcommand : Text.lower "SET-ALIAS" = Text.lower "Set-Alias" := by decide
  have hname : Text.lower "RUN" = Text.lower "run" := by decide
  have htarget : Text.lower "Iex" = Text.lower "iex" := by decide
  have hcall : Text.lower "ruN" = Text.lower "Run" := by decide
  have hparameter : Text.lower "P" = Text.lower "p" := by decide
  have hfolded : t.folded = t'.folded := by
    simp only [t, t', SyntaxTree.folded, SyntaxTree.relabel, aliasedEvaluation, Block.relabel,
      Param.relabels_eq_map, Node.relabels_eq_map, Element.relabels_eq_map, List.map_cons,
      List.map_nil, Node.relabel, Command.relabel, Element.relabel, Param.relabel, hcommand, hname,
      htarget, hcall, hparameter]
  exact ⟨hfolded, by decide +kernel, letterCase_irrelevant {} t t' hfolded⟩

/-! ## The order of offsets -/

def Finding.mapOffsets (f : UInt32 → UInt32) (x : Finding) : Finding :=
  { x with span := x.span.relabel ⟨id, f⟩ }

/-- The file with other offsets in all its spans. -/
def SyntaxTree.mapOffsets (f : UInt32 → UInt32) (t : SyntaxTree) : SyntaxTree :=
  t.relabel ⟨id, f⟩

/-- Texts stand for themselves, and the offsets of `s` for what `f` makes of them. -/
def Likeness.offsetOrder (s : List UInt32) (f : UInt32 → UInt32)
    (hf : ∀ a ∈ s, ∀ b ∈ s, a < b → f a < f b) : Likeness where
  text := Eq
  offset o o' := o ∈ s ∧ f o = o'
  lower_eq := congrArg Text.lower
  lt_iff := by
    rintro a _ b _ ⟨ha, rfl⟩ ⟨hb, rfl⟩
    refine ⟨hf a ha b hb, fun hlt => ?_⟩
    apply Classical.byContradiction
    intro hab
    rw [UInt32.not_lt] at hab
    by_cases heq : b = a
    · subst heq
      exact UInt32.lt_irrefl _ hlt
    · exact UInt32.lt_asymm hlt (hf b hb a ha (UInt32.lt_of_le_of_ne hab heq))

theorem Finding.Like.placeless_eq {s : List UInt32} {f : UInt32 → UInt32}
    {hf : ∀ a ∈ s, ∀ b ∈ s, a < b → f a < f b} {x x' : Finding}
    (h : x.Like (.offsetOrder s f hf) x') : (x.mapOffsets f).placeless = x'.placeless := by
  have hspan : x.span.relabel ⟨id, f⟩ = x'.span := by
    rw [Span.mk.injEq]
    exact ⟨h.span.start.2, h.span.stop.2⟩
  have hmessage : x.message = x'.message := h.message fun _ _ hs => hs
  unfold mapOffsets placeless
  rw [h.ruleId, h.detector, h.severity, h.confidence, hmessage, hspan, h.file, h.suggestion]

/-- **Only the order of offsets counts.** Change the offsets of a file in such a way that they stay
in their order. The report then names the same findings, at the changed spans, in the same order,
and divides them in the same way into those that stand and those that are silenced; lines and
columns are left aside. To shift all offsets by one amount is a case of this. -/
theorem offsetOrder_suffices (cfg : Config) (t : SyntaxTree) :
    (∀ f : UInt32 → UInt32, (∀ a ∈ t.offsets, ∀ b ∈ t.offsets, a < b → f a < f b) →
      (cfg.roster.report (t.mapOffsets f)).mapFindings Finding.placeless =
        (cfg.roster.report t).mapFindings fun x => (x.mapOffsets f).placeless) ∧
    ∀ (k : Int) (f : UInt32 → UInt32), (∀ o ∈ t.offsets, ((f o).toNat : Int) = o.toNat + k) →
      (cfg.roster.report (t.mapOffsets f)).mapFindings Finding.placeless =
        (cfg.roster.report t).mapFindings fun x => (x.mapOffsets f).placeless := by
  have hordered (f : UInt32 → UInt32)
      (hf : ∀ a ∈ t.offsets, ∀ b ∈ t.offsets, a < b → f a < f b) :
      (cfg.roster.report (t.mapOffsets f)).mapFindings Finding.placeless =
        (cfg.roster.report t).mapFindings fun x => (x.mapOffsets f).placeless := by
    have hlike : t.Like (.offsetOrder t.offsets f hf) (t.mapOffsets f) :=
      SyntaxTree.like_relabel (fun _ => rfl) t fun o ho => ⟨ho, rfl⟩
    exact ((hlike.report cfg.detectors_roster).mapFindings_eq fun _ _ hx => hx.placeless_eq).symm
  refine ⟨hordered, fun k f hf => hordered f fun a ha b hb hab => ?_⟩
  have hfa := hf a ha
  have hfb := hf b hb
  rw [UInt32.lt_iff_toNat_lt] at hab ⊢
  omega

theorem offsetOrder_suffices_aliasedEvaluation :
    let t := aliasedEvaluation "Set-Alias" "run" "iex" "Run" "p"
    let stretch : UInt32 → UInt32 := fun o => 3 * o + 7
    let shift : UInt32 → UInt32 := fun o => o + 1000
    ((∀ a ∈ t.offsets, ∀ b ∈ t.offsets, a < b → stretch a < stretch b) ∧
      ∀ o ∈ t.offsets, ((shift o).toNat : Int) = o.toNat + 1000) ∧
    (((Config.roster {}).report t).findings.map fun x => (x.mapOffsets stretch).span) =
      [⟨187, 205⟩] ∧
    (((Config.roster {}).report (t.mapOffsets stretch)).mapFindings Finding.placeless =
      ((Config.roster {}).report t).mapFindings fun x => (x.mapOffsets stretch).placeless) ∧
    (((Config.roster {}).report (t.mapOffsets shift)).mapFindings Finding.placeless =
      ((Config.roster {}).report t).mapFindings fun x => (x.mapOffsets shift).placeless) := by
  intro t stretch shift
  -- The offsets of the file are checked, not all offsets that there are.
  have hpairs : (t.offsets.all fun a => t.offsets.all fun b => !(a < b) || stretch a < stretch b) =
      true := by
    decide +kernel
  have hstretch : ∀ a ∈ t.offsets, ∀ b ∈ t.offsets, a < b → stretch a < stretch b := by
    intro a ha b hb hab
    simpa [hab] using List.all_eq_true.1 (List.all_eq_true.1 hpairs a ha) b hb
  have hsums : (t.offsets.all fun o => ((shift o).toNat : Int) == o.toNat + 1000) = true := by
    decide +kernel
  have hshift : ∀ o ∈ t.offsets, ((shift o).toNat : Int) = o.toNat + 1000 := by
    intro o ho
    exact eq_of_beq (List.all_eq_true.1 hsums o ho)
  obtain ⟨hordered, hshifted⟩ := offsetOrder_suffices {} t
  exact ⟨⟨hstretch, hshift⟩, by decide +kernel, hordered stretch hstretch,
    hshifted 1000 shift hshift⟩

end ScriptTaint
