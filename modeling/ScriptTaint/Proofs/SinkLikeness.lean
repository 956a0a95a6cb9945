import ScriptTaint.Detect.Builtin
import ScriptTaint.Proofs.Likeness
import ScriptTaint.Proofs.Positions

/-!
# Sinks of files that are alike

Alike commands give alike arguments under the same names and positions (`Command.Like.argument?`),
have alike command lines (`Token.commandLine_like`) and make alike calls of sinks
(`Node.Like.sinkCalls`). The walks of alike files meet alike nodes in alike frames
(`SyntaxTree.Like.visits`). So the files define the same aliases (`SyntaxTree.Like.aliases_eq`), and
have alike code sites (`SyntaxTree.Like.codeSites`) and computed members
(`SyntaxTree.Like.computedMembers`).
-/

set_option autoImplicit false

namespace ScriptTaint

open List (Forall₂)

variable {φ : Likeness}

/-! ## Arguments -/

namespace Element.Like

theorem isParameter_eq {e e' : Element} (h : e.Like φ e') (names : List String) :
    e.isParameter names = e'.isParameter names := by
  cases h with
  | argument => rfl
  | parameter hname _ _ =>
    simp only [isParameter]
    congr 1
    funext full
    exact φ.eq_of_caseless (Text.caseless_abbreviates full) hname

theorem namedIn? {es es' : List Element} (h : Forall₂ (Element.Like φ) es es')
    (names : List String) :
    Option.Rel (Node.Like φ) (Element.namedIn? names es) (Element.namedIn? names es') := by
  induction h with
  | nil => exact .none
  | cons he hrest ih =>
    simp only [Element.namedIn?, he.isParameter_eq names]
    split
    · refine rel_or he.operand? ?_
      cases hrest with
      | nil => exact .none
      | cons hd _ =>
        cases hd with
        | argument hvalue => exact .some hvalue
        | parameter => exact .none
    · exact ih

end Element.Like

namespace Command.Like

variable {c c' : Command}

theorem elements (h : c.Like φ c') : Forall₂ (Element.Like φ) c.elements c'.elements := by
  cases h with
  | mk _ helements _ => exact helements

theorem span (h : c.Like φ c') : c.span.Like φ c'.span := by
  cases h with
  | mk _ _ hspan => exact hspan

theorem name? (h : c.Like φ c') : Option.Rel φ.text c.name? c'.name? := by
  cases h with
  | mk hname _ _ => exact hname.literal?

theorem positionals (h : c.Like φ c') : Forall₂ (Node.Like φ) c.positionals c'.positionals := by
  refine List.rel_filterMap (fun e e' he => ?_) h.elements
  cases he with
  | argument hvalue => exact .some hvalue
  | parameter => exact .none

theorem argument? (h : c.Like φ c') (names : List String) (position : Option Nat) :
    Option.Rel (Node.Like φ) (c.argument? names position) (c'.argument? names position) := by
  refine rel_or (Element.Like.namedIn? h.elements names) ?_
  cases position with
  | none => exact .none
  | some i => exact rel_getElem? h.positionals i

theorem code? (h : c.Like φ c') (s : CommandSink) :
    Option.Rel (Node.Like φ) (s.code? c) (s.code? c') :=
  h.argument? s.parameters s.position

end Command.Like

/-! ## Command lines -/

inductive Token.Like (φ : Likeness) : Token → Token → Prop
  | flag {name : String} {bound bound' : Option Node}
      (hbound : Option.Rel (Node.Like φ) bound bound') :
      Token.Like φ (.flag name bound) (.flag name bound')
  | value {n n' : Node} (hn : n.Like φ n') : Token.Like φ (.value n) (.value n')

theorem Node.Like.tokens {n n' : Node} (h : n.Like φ n') :
    Forall₂ (Token.Like φ) n.tokens n'.tokens := by
  refine induction_children h fun m m' hm ih => ?_
  cases hm with
  | @arrayLiteral elements elements' span span' =>
    rw [tokens.eq_def, tokens.eq_def (.arrayLiteral elements' span')]
    simp only [List.flatMap_subtype, List.unattach_attach]
    exact forall₂_flatMap ih fun _ _ he => he
  | paren =>
    obtain _ | ⟨hinner, -⟩ := ih
    rw [tokens.eq_def, tokens.eq_def (.paren _ _)]
    exact hinner
  | literal hvalue hspan =>
    rw [tokens.eq_def, tokens.eq_def (.literal _ _)]
    simp only [φ.eq_of_caseless caseless_isSwitch hvalue, φ.lower_eq hvalue]
    split
    · exact .cons (.flag .none) .nil
    · exact .cons (.value (.literal hvalue hspan)) .nil
  | _ =>
    rw [tokens.eq_def, tokens.eq_def (_ : Node)]
    exact .cons (.value (by constructor <;> assumption)) .nil

theorem Element.Like.tokens {e e' : Element} (h : e.Like φ e') :
    Forall₂ (Token.Like φ) e.tokens e'.tokens := by
  cases h with
  | argument hvalue => exact hvalue.tokens
  | parameter hname hbound _ =>
    simp only [Element.tokens, φ.lower_eq hname]
    exact .cons (.flag hbound) .nil

namespace Token

theorem flaggedLine?_like {ts ts' : List Token} (h : Forall₂ (Token.Like φ) ts ts') :
    Option.Rel (Forall₂ (Node.Like φ)) (flaggedLine? ts) (flaggedLine? ts') := by
  induction h with
  | nil => exact .none
  | cons ht hrest ih =>
    cases ht with
    | value hn => exact ih
    | flag hbound =>
      simp only [flaggedLine?]
      split
      · refine .some (List.rel_append (forall₂_toList hbound)
          (List.rel_filterMap (fun t t' ht => ?_) hrest))
        cases ht with
        | flag hbound => exact hbound
        | value hn => exact .some hn
      · split
        · exact .some .nil
        · exact ih

theorem commandLine_like {ts ts' : List Token} (h : Forall₂ (Token.Like φ) ts ts') :
    Forall₂ (Node.Like φ) (commandLine ts) (commandLine ts') := by
  have hline := flaggedLine?_like h
  unfold commandLine
  generalize flaggedLine? ts = line, flaggedLine? ts' = line' at hline ⊢
  cases hline with
  | some hline => exact hline
  | none =>
    refine List.rel_filterMap (fun t t' ht => ?_) h
    cases ht with
    | flag => exact .none
    | value hn => exact .some hn

end Token

/-! ## Calls -/

structure SinkCall.Like (φ : Likeness) (k k' : SinkCall) : Prop where
  category : k.category = k'.category
  sink : φ.text k.sink k'.sink
  span : k.span.Like φ k'.span
  code : Forall₂ (Node.Like φ) k.code k'.code

structure CodeSite.Like (φ : Likeness) (s s' : CodeSite) : Prop where
  category : s.category = s'.category
  sink : φ.text s.sink s'.sink
  span : s.span.Like φ s'.span
  tainted : s.tainted = s'.tainted
  escaped : s.escaped = s'.escaped

/-- Alike calls are judged alike. -/
theorem SinkCall.Like.site {k k' : SinkCall} (h : k.Like φ k') {b b' : Bindings}
    (hb : b.Like φ b') : (k.site b).Like φ (k'.site b') where
  category := h.category
  sink := h.sink
  span := h.span
  tainted := any_eq_of_forall₂ h.code fun _ _ hn => by rw [hn.constancy_eq hb]
  escaped := any_eq_of_forall₂ h.code fun _ _ hn => hn.carriesEscaped_eq hb

section
variable (r : SinkRegistry) (a : Aliases)

theorem SinkRegistry.resolve?_like {written written' : String} (h : φ.text written written') :
    r.resolve? a written = r.resolve? a written' := by
  unfold resolve?
  rw [φ.eq_of_caseless caseless_commandName h]

namespace Command.Like

variable {c c' : Command}

theorem lineCall? (h : c.Like φ c') {sink sink' : String} (hsink : φ.text sink sink')
    {ts ts' : List Token} (hts : Forall₂ (Token.Like φ) ts ts') :
    Option.Rel (SinkCall.Like φ) (c.lineCall? sink ts) (c'.lineCall? sink' ts') := by
  have hline := Token.commandLine_like hts
  unfold Command.lineCall?
  generalize commandLine ts = line, commandLine ts' = line' at hline ⊢
  cases hline with
  | nil => exact .none
  | cons hn hrest => exact .some ⟨rfl, hsink, h.span, .cons hn hrest⟩

theorem launched? (h : c.Like φ c') : Option.Rel φ.text (c.launched? r) (c'.launched? r) := by
  refine rel_optionFilter (rel_bind (h.argument? _ _) fun _ _ hn => hn.literal?) fun s s' hs => ?_
  unfold SinkRegistry.isInterpreter
  rw [φ.eq_of_caseless caseless_commandName hs]

theorem sinkCall? (h : c.Like φ c') :
    Option.Rel (SinkCall.Like φ) (c.sinkCall? r a) (c'.sinkCall? r a) := by
  refine rel_bind h.name? fun written written' hwritten => ?_
  rw [r.resolve?_like a hwritten]
  cases r.resolve? a written' with
  | none => exact .none
  | some sink =>
    simp only [Option.bind_eq_bind, Option.bind_some]
    cases sink.category with
    | dynamicEvaluation | typeDefinition | perItemOperator =>
      exact rel_bind (h.code? sink) fun _ _ hcode =>
        .some ⟨rfl, hwritten, h.span, .cons hcode .nil⟩
    | externalInterpreter =>
      exact h.lineCall? hwritten (forall₂_flatMap h.elements fun _ _ he => he.tokens)
    | processLauncher =>
      exact rel_bind (h.launched? r) fun _ _ hprogram =>
        rel_bind (h.code? sink) fun _ _ hcode => h.lineCall? hprogram hcode.tokens
    | reflectiveMethod | aliasDefinition => exact .none

theorem pipedCall? (h : c.Like φ c') {feed feed' : Node} (hfeed : feed.Like φ feed') :
    Option.Rel (SinkCall.Like φ) (c.pipedCall? r a feed) (c'.pipedCall? r a feed') := by
  refine rel_bind h.name? fun written written' hwritten => ?_
  rw [r.resolve?_like a hwritten]
  cases r.resolve? a written' with
  | none => exact .none
  | some sink =>
    simp only [Option.bind_eq_bind, Option.bind_some, isNone_eq_of_rel (h.code? sink)]
    split
    · exact .some ⟨rfl, hwritten, h.span, .cons hfeed .nil⟩
    · exact .none

/-- Alike commands define one alias, whatever the case of its name. -/
theorem aliasDefinition? (h : c.Like φ c') :
    Option.Rel (fun d d' => φ.text d.1 d'.1 ∧ φ.text d.2 d'.2) (c.aliasDefinition? r)
      (c'.aliasDefinition? r) := by
  have hliteral (names : List String) (i : Nat) :
      Option.Rel φ.text ((c.argument? names (some i)).bind Node.literal?)
        ((c'.argument? names (some i)).bind Node.literal?) :=
    rel_bind (h.argument? names _) fun _ _ hn => hn.literal?
  have hsink : Option.Rel Eq (r.commandSink? .empty c) (r.commandSink? .empty c') := by
    refine rel_bind h.name? fun written written' hwritten => ?_
    rw [r.resolve?_like _ hwritten]
    cases r.resolve? _ written' with
    | none => exact .none
    | some sink => exact .some rfl
  refine rel_bind hsink fun sink sink' heq => ?_
  subst heq
  split
  · exact rel_bind (hliteral ["Name"] 0) fun _ _ hname =>
      rel_bind (hliteral ["Value"] 1) fun _ _ htarget => .some ⟨hname, htarget⟩
  · exact .none

end Command.Like

theorem pipedCalls_like {elements elements' : List Node}
    (h : Forall₂ (Node.Like φ) elements elements') :
    Forall₂ (SinkCall.Like φ) (pipedCalls r a elements) (pipedCalls r a elements') := by
  refine List.rel_filterMap (fun p p' hp => ?_) (forall₂_zip_tail h)
  obtain ⟨feed, n⟩ := p
  obtain ⟨feed', n'⟩ := p'
  obtain ⟨hfeed, hn⟩ := hp
  cases hn with
  | command hc => exact hc.pipedCall? r a hfeed
  | _ => exact .none

namespace Invocation.Like

variable {i i' : Invocation}

theorem span (h : i.Like φ i') : i.span.Like φ i'.span := by
  cases h with
  | mk _ _ _ hspan => exact hspan

theorem acceptsReceiver_eq (h : i.Like φ i') (s : MethodSink) :
    s.acceptsReceiver i = s.acceptsReceiver i' := by
  cases h with
  | mk htarget _ _ _ =>
    unfold MethodSink.acceptsReceiver
    congr 1
    cases htarget with
    | typeLiteral hname _ => simp only [φ.eq_of_caseless caseless_typeName hname]
    | _ => rfl

theorem methodSink?_eq (h : i.Like φ i') : r.methodSink? i = r.methodSink? i' := by
  have hname (s : MethodSink) : i.name?.any (fun name => Text.lower s.method == Text.lower name) =
      i'.name?.any (fun name => Text.lower s.method == Text.lower name) :=
    any_eq_of_rel h.name? fun _ _ ht => by rw [φ.lower_eq ht]
  unfold SinkRegistry.methodSink?
  congr 1
  funext s
  unfold MethodSink.isCalledBy
  rw [hname, h.acceptsReceiver_eq]

theorem sinkCall? (h : i.Like φ i') :
    Option.Rel (SinkCall.Like φ) (i.sinkCall? r) (i'.sinkCall? r) := by
  refine rel_bind h.name? fun written written' hwritten => ?_
  rw [h.methodSink?_eq r]
  cases r.methodSink? i' with
  | none => exact .none
  | some sink =>
    simp only [Option.bind_eq_bind, Option.bind_some]
    exact rel_bind (rel_getElem? h.arguments sink.position) fun _ _ hcode =>
      .some ⟨rfl, hwritten, h.span, .cons hcode .nil⟩

end Invocation.Like

/-- Alike nodes make alike calls of sinks. -/
theorem Node.Like.sinkCalls {n n' : Node} (h : n.Like φ n') :
    Forall₂ (SinkCall.Like φ) (n.sinkCalls r a) (n'.sinkCalls r a) := by
  cases h with
  | command hc => exact forall₂_toList (hc.sinkCall? r a)
  | pipeline helements _ => exact pipedCalls_like r a helements
  | invocation hi => exact forall₂_toList (hi.sinkCall? r)
  | _ => exact .nil

end

/-! ## Walks -/

namespace Node.Like

variable {n n' : Node}

theorem block? (h : n.Like φ n') : Option.Rel (Block.Like φ) n.block? n'.block? := by
  cases h with
  | scriptBlock hb => exact .some hb
  | function _ _ hbody => exact .some hbody
  | _ => exact .none

/-- Either both nodes open blocks, and these are alike, or neither does. -/
theorem block?_cases (h : n.Like φ n') : (n.block? = none ∧ n'.block? = none) ∨
    ∃ b b', n.block? = some b ∧ n'.block? = some b' ∧ b.Like φ b' := by
  have hb := h.block?
  generalize n.block? = o, n'.block? = o' at hb ⊢
  cases hb with
  | none => exact .inl ⟨rfl, rfl⟩
  | some hb => exact .inr ⟨_, _, rfl, rfl, hb⟩

/-- Induction over two alike nodes, also through blocks. -/
@[elab_as_elim]
theorem induction_parts {P : Node → Node → Prop} (h : n.Like φ n')
    (children : ∀ m m', m.Like φ m' → m.block? = none → m'.block? = none →
      Forall₂ P m.children m'.children → P m m')
    (block : ∀ m m' b b', m.Like φ m' → m.block? = some b → m'.block? = some b' → b.Like φ b' →
      Forall₂ P b.nodes b'.nodes → P m m') : P n n' := by
  induction n using Node.induction_parts generalizing n' with
  | step n ih =>
    have inside (nodes nodes' : List Node) (hparts : n.parts.map (·.2) = nodes)
        (hnodes : Forall₂ (Node.Like φ) nodes nodes') : Forall₂ P nodes nodes' := by
      refine forall₂_of_mem hnodes fun m hm m' hmm => ?_
      obtain ⟨p, hp, rfl⟩ := List.mem_map.1 (hparts ▸ hm)
      exact ih p hp hmm
    rcases h.block?_cases with ⟨hb, hb'⟩ | ⟨b, b', hb, hb', hbb⟩
    · exact children n n' h hb hb' (inside _ _ (map_snd_parts hb) h.children)
    · exact block n n' b b' h hb hb' hbb (inside _ _ (map_snd_parts_block hb) hbb.nodes)

end Node.Like

inductive Visit.Like (φ : Likeness) : Visit → Visit → Prop
  | block {b b' : Block} (hb : b.Like φ b') : Visit.Like φ (.block b.frame) (.block b'.frame)
  | node {b b' : Block} {n n' : Node} (hb : b.Like φ b') (hn : n.Like φ n') :
      Visit.Like φ (.node b.frame n) (.node b'.frame n')

theorem Node.Like.visits {n n' : Node} (h : n.Like φ n') {scope scope' : Block}
    (hscope : scope.Like φ scope') :
    Forall₂ (Visit.Like φ) (n.visits scope.frame) (n'.visits scope'.frame) := by
  suffices hall : ∀ scope scope' : Block, scope.Like φ scope' →
      Forall₂ (Visit.Like φ) (n.visits scope.frame) (n'.visits scope'.frame) from
    hall scope scope' hscope
  clear hscope scope scope'
  refine induction_parts h (fun m m' hm hb hb' ih scope scope' hscope => ?_)
    fun m m' b b' hm hb hb' hbb ih scope scope' hscope => ?_
  · rw [visits_children hb, visits_children hb']
    exact .cons (.node hscope hm) (forall₂_flatMap ih fun _ _ hc => hc scope scope' hscope)
  · rw [visits_block hb, visits_block hb', Block.visits_eq, Block.visits_eq]
    exact .cons (.node hscope hm) (.cons (.block hbb)
      (forall₂_flatMap ih fun _ _ hc => hc b b' hbb))

/-! ## Files -/

/-- The files are called the same, have the same lines and alike blocks. -/
structure SyntaxTree.Like (φ : Likeness) (t t' : SyntaxTree) : Prop where
  path : t.path = t'.path
  lineStarts : t.lineStarts = t'.lineStarts
  root : t.root.Like φ t'.root

namespace SyntaxTree.Like

variable {t t' : SyntaxTree} (h : t.Like φ t') (r : SinkRegistry)

include h

omit r in
theorem visits : Forall₂ (Visit.Like φ) t.visits t'.visits := by
  unfold SyntaxTree.visits
  rw [Block.visits_eq, Block.visits_eq]
  exact .cons (.block h.root) (forall₂_flatMap h.root.nodes fun _ _ hn => hn.visits h.root)

/-- Alike files define the same aliases. -/
theorem aliases_eq : t.aliases r = t'.aliases r := by
  have hdefs : Forall₂ (fun d d' => φ.text d.1 d'.1 ∧ φ.text d.2 d'.2)
      (t.visits.filterMap (·.aliasDefinition? r)) (t'.visits.filterMap (·.aliasDefinition? r)) := by
    refine List.rel_filterMap (fun v v' hv => ?_) h.visits
    cases hv with
    | block => exact .none
    | node _ hn =>
      cases hn with
      | command hc => exact hc.aliasDefinition? r
      | _ => exact .none
  refine List.rel_foldl (R := fun d d' => φ.text d.1 d'.1 ∧ φ.text d.2 d'.2) (P := Eq) ?_ rfl hdefs
  rintro a _ rfl ⟨name, target⟩ ⟨name', target'⟩ hd
  show a.insert name target = a.insert name' target'
  unfold Aliases.insert
  rw [φ.eq_of_caseless caseless_commandName hd.1, φ.eq_of_caseless caseless_commandName hd.2]

theorem codeSites : Forall₂ (CodeSite.Like φ) (t.codeSites r) (t'.codeSites r) := by
  unfold SyntaxTree.codeSites
  rw [h.aliases_eq r]
  refine forall₂_flatMap h.visits fun v v' hv => ?_
  cases hv with
  | block => exact .nil
  | node hb hn => exact List.rel_map (fun _ _ hk => hk.site hb.bindings) (hn.sinkCalls r _)

end SyntaxTree.Like

structure Detector.ComputedMember.Like (φ : Likeness) (m m' : Detector.ComputedMember) : Prop where
  span : m.span.Like φ m'.span
  isStatic : m.isStatic = m'.isStatic
  isInvoked : m.isInvoked = m'.isInvoked

theorem Detector.isComputed_like {b b' : Block} (hb : b.Like φ b') {name name' : Node}
    (h : name.Like φ name') : isComputed b.frame name = isComputed b'.frame name' := by
  have hconstancy : name.constancy b.frame.bindings = name'.constancy b'.frame.bindings :=
    h.constancy_eq hb.bindings
  unfold isComputed
  rw [isNone_eq_of_rel h.literal?, hconstancy]

theorem SyntaxTree.Like.computedMembers {t t' : SyntaxTree} (h : t.Like φ t') :
    Forall₂ (Detector.ComputedMember.Like φ) (t.visits.filterMap Detector.computedMember?)
      (t'.visits.filterMap Detector.computedMember?) := by
  refine List.rel_filterMap (fun v v' hv => ?_) h.visits
  cases hv with
  | block => exact .none
  | node hb hn =>
    cases hn with
    | invocation hi =>
      cases hi with
      | mk _ hname _ hspan =>
        simp only [Detector.computedMember?, Detector.isComputed_like hb hname]
        split
        · exact .some ⟨hspan, rfl, rfl⟩
        · exact .none
    | member _ hname hspan =>
      simp only [Detector.computedMember?, Detector.isComputed_like hb hname]
      split
      · exact .some ⟨hspan, rfl, rfl⟩
      · exact .none
    | _ => exact .none

end ScriptTaint
