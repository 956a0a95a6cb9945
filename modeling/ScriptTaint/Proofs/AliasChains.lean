import Mathlib.Data.List.Induction
import Mathlib.Data.List.Perm.Subperm
import ScriptTaint.Proofs.Positions
import ScriptTaint.Sink.Alias

/-!
# Chains of aliases

A name means the sink at the end of its chain of aliases. No chain that ends at a sink passes a name
twice, so the bound of `resolve?` never cuts one off (`SinkRegistry.resolve?_eq_some_iff`;
`alias_chains_followed` says the same of the chain told step by step), and an alias means what its
target means (`SinkRegistry.resolve?_of_target`). Of the definitions of a name
the last one of the file counts, in whatever scope it stands. Hence an alias for a name that
evaluates code evaluates code as well, unless the last definition gives it to a name that does not
(`alias_of_evaluator_evaluates`).
-/

set_option autoImplicit false

namespace ScriptTaint

namespace SinkRegistry

variable {r : SinkRegistry} {a : Aliases} {name : String} {path : List String} {s : CommandSink}

/-- From `name` the aliases lead through the unregistered names of `path` to one that is registered
for `s`. -/
inductive Trail (r : SinkRegistry) (a : Aliases) : String → List String → CommandSink → Prop
  | registered {name : String} {s : CommandSink} (h : r.named? name = some s) : Trail r a name [] s
  | via {name next : String} {path : List String} {s : CommandSink} (h : r.named? name = none)
      (hnext : a.target? name = some next) (hpath : Trail r a next path s) :
      Trail r a name (name :: path) s

theorem follow?_of_trail (h : r.Trail a name path s) {bound : Nat} (hbound : path.length < bound) :
    r.follow? a bound name = some s := by
  induction h generalizing bound with
  | registered h =>
    obtain ⟨bound, rfl⟩ : ∃ k, bound = k + 1 := ⟨bound - 1, by simp at hbound; omega⟩
    simp [follow?, h]
  | via h hnext _ ih =>
    rw [List.length_cons] at hbound
    obtain ⟨bound, rfl⟩ : ∃ k, bound = k + 1 := ⟨bound - 1, by omega⟩
    simp [follow?, h, hnext, ih (show _ < bound by omega)]

theorem trail_of_follow? {bound : Nat} (h : r.follow? a bound name = some s) :
    ∃ path, r.Trail a name path s := by
  induction bound generalizing name with
  | zero => cases h
  | succ bound ih =>
    rw [follow?] at h
    cases hn : r.named? name with
    | some s' =>
      rw [hn] at h
      exact ⟨[], .registered (hn.trans h)⟩
    | none =>
      rw [hn] at h
      obtain ⟨next, hnext, h⟩ := Option.bind_eq_some_iff.1 h
      obtain ⟨path, hpath⟩ := ih h
      exact ⟨name :: path, .via hn hnext hpath⟩

namespace Trail

theorem named (h : r.Trail a name [] s) : r.named? name = some s := by
  cases h with
  | registered h => exact h

theorem next (h : r.Trail a name path s) (hname : r.named? name = none) {target : String}
    (htarget : a.target? name = some target) : ∃ rest, r.Trail a target rest s := by
  cases h with
  | registered h => exact absurd (hname.symm.trans h) (by simp)
  | via _ hnext hpath =>
    obtain rfl : target = _ := Option.some.inj (htarget.symm.trans hnext)
    exact ⟨_, hpath⟩

/-- There is one way to go from a name. -/
theorem eq_path (h : r.Trail a name path s) {path' : List String} {s' : CommandSink}
    (h' : r.Trail a name path' s') : path = path' := by
  induction h generalizing path' with
  | registered h =>
    cases h' with
    | registered _ => rfl
    | via h' _ _ => exact absurd (h.symm.trans h') (by simp)
  | via h hnext _ ih =>
    cases h' with
    | registered h' => exact absurd (h.symm.trans h') (by simp)
    | via _ hnext' hpath' =>
      obtain rfl : _ = _ := Option.some.inj (hnext.symm.trans hnext')
      rw [ih hpath']

/-- The trail from a name on the way is no longer than the whole. -/
theorem onward (h : r.Trail a name path s) {n : String} (hn : n ∈ path) :
    ∃ rest, r.Trail a n rest s ∧ rest.length ≤ path.length := by
  induction h with
  | registered => cases hn
  | @via name next path s h hnext hpath ih =>
    rcases List.mem_cons.1 hn with rfl | hn
    · exact ⟨_, .via h hnext hpath, Nat.le_refl _⟩
    · obtain ⟨rest, hrest, hle⟩ := ih hn
      exact ⟨rest, hrest, Nat.le_succ_of_le hle⟩

/-- A trail passes no name twice: it would never leave the circle. -/
theorem nodup (h : r.Trail a name path s) : path.Nodup := by
  induction h with
  | registered => exact List.nodup_nil
  | @via name next path s h hnext hpath ih =>
    refine List.nodup_cons.2 ⟨fun hmem => ?_, ih⟩
    obtain ⟨rest, hrest, hle⟩ := hpath.onward hmem
    have hround : rest = name :: path := hrest.eq_path (.via h hnext hpath)
    rw [hround, List.length_cons] at hle
    omega

theorem subset_names (h : r.Trail a name path s) : path ⊆ a.targets.map (·.1) := by
  induction h with
  | registered => exact List.nil_subset _
  | @via name next path s h hnext hpath ih =>
    refine List.cons_subset.2 ⟨?_, ih⟩
    obtain ⟨before, after, htargets, -⟩ := List.lookup_eq_some_iff.1 hnext
    simp [htargets]

theorem length_le (h : r.Trail a name path s) : path.length ≤ a.size := by
  have hle := (h.nodup.subperm h.subset_names).length_le
  rwa [List.length_map] at hle

end Trail

/-- A name means a sink if its aliases lead to the sink, however many they are. -/
theorem resolve?_eq_some_iff {written : String} :
    r.resolve? a written = some s ↔ ∃ path, r.Trail a (commandName written) path s := by
  constructor
  · exact trail_of_follow?
  · rintro ⟨path, h⟩
    exact follow?_of_trail h (Nat.lt_succ_of_le h.length_le)

/-- An alias means what its target means. -/
theorem resolve?_of_target {name target : String} (h : r.named? (commandName name) = none)
    (htarget : a.target? (commandName name) = some (commandName target)) :
    r.resolve? a name = r.resolve? a target := by
  refine Option.ext fun s => ?_
  rw [resolve?_eq_some_iff, resolve?_eq_some_iff]
  constructor
  · rintro ⟨path, hpath⟩
    exact hpath.next h htarget
  · rintro ⟨path, hpath⟩
    exact ⟨_, .via h htarget hpath⟩

/-! ## Chains told step by step -/

theorem named?_eq_some_iff : r.named? name = some s ↔
    ∃ place, r.places.lookup name = some place ∧ r.commands[place]? = some s := by
  rw [named?_eq, Option.bind_eq_some_iff]

/-- A name has no place or stands for a command: no place is out of range. -/
theorem named?_eq_none_iff : r.named? name = none ↔ r.places.lookup name = none := by
  rw [← r.map_val_place?, named?, Option.map_eq_none_iff, Option.map_eq_none_iff]

end SinkRegistry

/-- The name that `steps` aliases after one another lead to. -/
def Aliases.after? (a : Aliases) : Nat → String → Option String
  | 0, name => some name
  | steps + 1, name => (a.target? name).bind (a.after? steps)

namespace SinkRegistry

variable {r : SinkRegistry} {a : Aliases} {name : String} {s : CommandSink}

theorem exists_trail_iff : (∃ path, r.Trail a name path s) ↔
    ∃ steps last, a.after? steps name = some last ∧ r.named? last = some s ∧
      ∀ fewer < steps, ∀ earlier, a.after? fewer name = some earlier → r.named? earlier = none := by
  constructor
  · rintro ⟨path, h⟩
    induction h with
    | @registered name s h => exact ⟨0, name, rfl, h, fun fewer hlt => absurd hlt fewer.not_lt_zero⟩
    | @via name next path s h hnext _ ih =>
      obtain ⟨steps, last, hlast, hs, hearlier⟩ := ih
      refine ⟨steps + 1, last, by simp [Aliases.after?, hnext, hlast], hs, ?_⟩
      intro fewer hlt earlier he
      cases fewer with
      | zero =>
        obtain rfl : name = earlier := Option.some.inj he
        exact h
      | succ fewer =>
        rw [Aliases.after?, hnext, Option.bind_some] at he
        exact hearlier fewer (Nat.lt_of_succ_lt_succ hlt) earlier he
  · rintro ⟨steps, last, hlast, hs, hearlier⟩
    induction steps generalizing name with
    | zero =>
      obtain rfl : name = last := Option.some.inj hlast
      exact ⟨[], .registered hs⟩
    | succ steps ih =>
      obtain ⟨next, hnext, hlast⟩ := Option.bind_eq_some_iff.1 hlast
      have hname : r.named? name = none := hearlier 0 steps.succ_pos name rfl
      obtain ⟨path, hpath⟩ := ih hlast fun fewer hlt earlier he =>
        hearlier (fewer + 1) (Nat.succ_lt_succ hlt) earlier (by simp [Aliases.after?, hnext, he])
      exact ⟨name :: path, .via hname hnext hpath⟩

/-- More rounds than `resolve?` takes give the same answer. -/
theorem follow?_of_size_lt {written : String} {bound : Nat} (h : a.size < bound) :
    r.follow? a bound (commandName written) = r.resolve? a written := by
  refine Option.ext fun s => ?_
  rw [resolve?_eq_some_iff]
  constructor
  · exact trail_of_follow?
  · rintro ⟨path, hpath⟩
    exact follow?_of_trail hpath (Nat.lt_of_le_of_lt hpath.length_le h)

/-- The command name means a sink that evaluates code. -/
def evaluates (r : SinkRegistry) (a : Aliases) (written : String) : Bool :=
  (r.resolve? a written).any (·.category.evaluatesCode)

end SinkRegistry

/-- **Chains of aliases are followed to their end.** A written name means a command exactly if some
number of aliases leads from it to a name whose place holds that command, and no name before that
one has a place. Further rounds would change nothing, and every place is one of the table's. -/
theorem alias_chains_followed (r : SinkRegistry) (a : Aliases) (written : String) :
    (∀ s, r.resolve? a written = some s ↔
      ∃ steps last place, a.after? steps (commandName written) = some last ∧
        r.places.lookup last = some place ∧ r.commands[place]? = some s ∧
        ∀ fewer < steps, ∀ earlier, a.after? fewer (commandName written) = some earlier →
          r.places.lookup earlier = none) ∧
    (∀ bound, a.size < bound →
      r.follow? a bound (commandName written) = r.resolve? a written) ∧
    ∀ name place, r.places.lookup name = some place → place < r.commands.length := by
  refine ⟨fun s => ?_, fun bound => SinkRegistry.follow?_of_size_lt,
    fun name place => SinkRegistry.lookup_lt⟩
  simp only [SinkRegistry.resolve?_eq_some_iff, SinkRegistry.exists_trail_iff,
    SinkRegistry.named?_eq_some_iff, SinkRegistry.named?_eq_none_iff]
  constructor
  · rintro ⟨steps, last, hlast, ⟨place, hplace, hs⟩, hearlier⟩
    exact ⟨steps, last, place, hlast, hplace, hs, hearlier⟩
  · rintro ⟨steps, last, place, hlast, hplace, hs, hearlier⟩
    exact ⟨steps, last, hlast, ⟨place, hplace, hs⟩, hearlier⟩

/-! ## The definition that counts -/

theorem Aliases.target?_insert (a : Aliases) (name target key : String) :
    (a.insert name target).target? key =
      if commandName name = key then some (commandName target) else a.target? key := by
  rw [target?, insert, List.lookup_cons]
  by_cases h : commandName name = key
  · simp [h]
  · have hkey : (key == commandName name) = false := by simpa using fun heq => h heq.symm
    simp only [hkey, if_neg h, target?]
    -- The entries that the definition replaces have another key.
    induction a.targets with
    | nil => rfl
    | cons p ps ih =>
      obtain ⟨k, v⟩ := p
      by_cases hk : k = commandName name
      · simp [hk, List.lookup_cons, hkey, ih]
      · simp [hk, List.lookup_cons, ih]

/-- The aliases after some definitions, taken in order. -/
def Aliases.ofDefinitions (defs : List (String × String)) : Aliases :=
  defs.foldl (fun a (name, target) => a.insert name target) .empty

/-- A name keeps the target of a definition that no later one replaces. -/
theorem Aliases.target?_ofDefinitions {before after : List (String × String)} {name target : String}
    (h : ∀ d ∈ after, commandName d.1 ≠ commandName name) :
    (ofDefinitions (before ++ (name, target) :: after)).target? (commandName name) =
      some (commandName target) := by
  induction after using List.reverseRecOn with
  | nil => simp [ofDefinitions, target?_insert]
  | append_singleton after d ih =>
    have hd : commandName d.1 ≠ commandName name := h d (by simp)
    have hrest := ih fun e he => h e (List.mem_append_left _ he)
    have hsnoc : before ++ (name, target) :: (after ++ [d]) =
        (before ++ (name, target) :: after) ++ [d] := by simp
    rw [hsnoc, ofDefinitions, List.foldl_append, List.foldl_cons, List.foldl_nil, target?_insert,
      if_neg hd]
    exact hrest

/-! ## Definitions in a file -/

/-- The command defines the alias `name` for `target`: its own name, and no alias of it, is
registered for that, and both arguments are literals. -/
structure Command.Defines (r : SinkRegistry) (c : Command) (name target : String) : Prop where
  registered : ∃ written sink, c.name? = some written ∧
    r.named? (commandName written) = some sink ∧ sink.category = .aliasDefinition
  name : (c.argument? ["Name"] (some 0)).bind Node.literal? = some name
  target : (c.argument? ["Value"] (some 1)).bind Node.literal? = some target

/-- Without aliases a name means what it is registered for. -/
theorem SinkRegistry.resolve?_empty (r : SinkRegistry) (written : String) :
    r.resolve? .empty written = r.named? (commandName written) := by
  refine Option.ext fun s => ?_
  rw [resolve?_eq_some_iff]
  constructor
  · rintro ⟨path, hpath⟩
    obtain rfl : path = [] := List.eq_nil_of_length_eq_zero (Nat.le_zero.1 hpath.length_le)
    exact hpath.named
  · intro h
    exact ⟨[], .registered h⟩

theorem Command.aliasDefinition?_eq_some_iff {r : SinkRegistry} {c : Command}
    {name target : String} :
    c.aliasDefinition? r = some (name, target) ↔ c.Defines r name target := by
  simp only [aliasDefinition?, SinkRegistry.commandSink?, Option.bind_eq_bind,
    Option.bind_eq_some_iff, SinkRegistry.resolve?_empty]
  constructor
  · rintro ⟨sink, ⟨written, hwritten, hsink⟩, h⟩
    split at h
    · obtain ⟨name', hname, h⟩ := Option.bind_eq_some_iff.1 h
      obtain ⟨target', htarget, h⟩ := Option.bind_eq_some_iff.1 h
      cases h
      exact ⟨⟨written, sink, hwritten, hsink, ‹_›⟩, hname, htarget⟩
    · cases h
  · rintro ⟨⟨written, sink, hwritten, hsink, hcategory⟩, hname, htarget⟩
    refine ⟨sink, ⟨written, hwritten, hsink⟩, ?_⟩
    simp [hcategory, hname, htarget]

/-- The alias that a node defines. -/
def Node.aliasDefinition? (r : SinkRegistry) : Node → Option (String × String)
  | .command c => c.aliasDefinition? r
  | _ => none

theorem Node.aliasDefinition?_eq_some_iff {r : SinkRegistry} {n : Node} {name target : String} :
    n.aliasDefinition? r = some (name, target) ↔
      ∃ c, n = .command c ∧ c.Defines r name target := by
  cases n <;> simp [aliasDefinition?, Command.aliasDefinition?_eq_some_iff]

/-- The aliases of a file are defined at its positions, in their order. -/
theorem SyntaxTree.aliases_eq (t : SyntaxTree) (r : SinkRegistry) :
    t.aliases r = .ofDefinitions (t.positions.filterMap (·.node.aliasDefinition? r)) := by
  rw [aliases, Aliases.ofDefinitions, List.filterMap_eq_flatMap_toList,
    ← t.flatMap_visits fun _ => rfl, List.filterMap_eq_flatMap_toList]
  congr 1
  refine List.flatMap_congr fun q _ => ?_
  cases q.node <;> rfl

/-- One of the positions defines an alias of the name. -/
def DefinedIn (r : SinkRegistry) (qs : List Position) (name : String) : Prop :=
  ∃ q ∈ qs, ∃ c name' target, q.node = .command c ∧ c.Defines r name' target ∧
    commandName name' = commandName name

/-- One of the definitions of a name is its last. -/
theorem DefinedIn.exists_last {r : SinkRegistry} {qs : List Position} {name : String}
    (h : DefinedIn r qs name) :
    ∃ mid q rest c name' target, qs = mid ++ q :: rest ∧ q.node = .command c ∧
      c.Defines r name' target ∧ commandName name' = commandName name ∧
      ¬ DefinedIn r rest name := by
  induction qs with
  | nil =>
    obtain ⟨q, hq, -⟩ := h
    cases hq
  | cons p qs ih =>
    by_cases hrest : DefinedIn r qs name
    · obtain ⟨mid, q, rest, c, name', target, rfl, hlast⟩ := ih hrest
      exact ⟨p :: mid, q, rest, c, name', target, rfl, hlast⟩
    · obtain ⟨q, hq, c, name', target, hdefines⟩ := h
      rcases List.mem_cons.1 hq with rfl | hq
      · obtain ⟨hc, hdefines, hsame⟩ := hdefines
        exact ⟨[], q, qs, c, name', target, rfl, hc, hdefines, hsame, hrest⟩
      · exact absurd ⟨q, hq, c, name', target, hdefines⟩ hrest

/-- In a file a name keeps the target of its last definition. -/
theorem SyntaxTree.target?_aliases {t : SyntaxTree} {r : SinkRegistry}
    {before after : List Position} {q : Position} {c : Command} {name target : String}
    (hq : t.positions = before ++ q :: after) (hc : q.node = .command c)
    (hdefines : c.Defines r name target) (hlast : ¬ DefinedIn r after name) :
    (t.aliases r).target? (commandName name) = some (commandName target) := by
  have hnode : q.node.aliasDefinition? r = some (name, target) :=
    Node.aliasDefinition?_eq_some_iff.2 ⟨c, hc, hdefines⟩
  have hdefs : (q :: after).filterMap (·.node.aliasDefinition? r) =
      (name, target) :: after.filterMap (·.node.aliasDefinition? r) :=
    List.filterMap_cons_some hnode
  rw [t.aliases_eq, hq, List.filterMap_append, hdefs]
  refine Aliases.target?_ofDefinitions fun d hd hsame => hlast ?_
  obtain ⟨q', hq', hd⟩ := List.mem_filterMap.1 hd
  obtain ⟨c', hc', hdefines'⟩ := Node.aliasDefinition?_eq_some_iff.1 hd
  exact ⟨q', hq', c', d.1, d.2, hc', hdefines', hsame⟩

/-- An alias for a name that evaluates code evaluates code, or its own name is registered, unless
the last definition of the alias is a later one and for a name that does not. -/
theorem alias_of_evaluator_evaluates (t : SyntaxTree) (r : SinkRegistry)
    {before after : List Position} {q : Position} {c : Command} {name target : String}
    (hq : t.positions = before ++ q :: after) (hc : q.node = .command c)
    (hdefines : c.Defines r name target) (htarget : r.evaluates (t.aliases r) target = true)
    (hlast : ∀ mid q' rest c' name' target', after = mid ++ q' :: rest → q'.node = .command c' →
      c'.Defines r name' target' → commandName name' = commandName name →
      ¬ DefinedIn r rest name → r.evaluates (t.aliases r) target' = true) :
    r.evaluates (t.aliases r) name = true ∨ (r.named? (commandName name)).isSome = true := by
  cases hnamed : r.named? (commandName name) with
  | some s => exact .inr rfl
  | none =>
    left
    by_cases hlater : DefinedIn r after name
    · obtain ⟨mid, q', rest, c', name', target', rfl, hc', hdefines', hsame, hnone⟩ :=
        hlater.exists_last
      have hq' : t.positions = (before ++ q :: mid) ++ q' :: rest := by simp [hq]
      have hmeans : (t.aliases r).target? (commandName name) = some (commandName target') := by
        rw [← hsame]
        refine t.target?_aliases hq' hc' hdefines' ?_
        rwa [DefinedIn, hsame]
      rw [SinkRegistry.evaluates, SinkRegistry.resolve?_of_target hnamed hmeans]
      exact hlast mid q' rest c' name' target' rfl hc' hdefines' hsame hnone
    · rw [SinkRegistry.evaluates, SinkRegistry.resolve?_of_target hnamed
        (t.target?_aliases hq hc hdefines hlater)]
      exact htarget

/-- The call `command name target`, from `start` on. -/
def aliasCommand (start : UInt32) (command name target : String) : Command where
  name := .literal command ⟨start, start + 3⟩
  elements :=
    [.argument (.literal name ⟨start + 4, start + 7⟩),
     .argument (.literal target ⟨start + 8, start + 11⟩)]
  span := ⟨start, start + 11⟩

/-- A file of such calls. -/
def aliasScript (commands : List Command) : SyntaxTree where
  path := "alias.ps1"
  lineStarts := [0]
  root := ⟨⟨0, 100⟩, [], [], commands.map .command⟩

/-- The alias `run` is given away, then taken back under the alias `go`, then for a compiler. -/
def regainedAlias : SyntaxTree :=
  aliasScript [aliasCommand 0 "Set-Alias" "run" "Get-Item", aliasCommand 20 "nal" "RUN" "go",
    aliasCommand 40 "sal" "go" "iex", aliasCommand 60 "Set-Alias" "run" "Add-Type"]

theorem alias_of_evaluator_evaluates_regainedAlias :
    regainedAlias.find? [.statement 1] =
      some (regainedAlias.root, .command (aliasCommand 20 "nal" "RUN" "go")) ∧
    SinkRegistry.builtin.evaluates (regainedAlias.aliases .builtin) "go" = true ∧
    (SinkRegistry.builtin.evaluates (regainedAlias.aliases .builtin) "RUN" = true ∨
      (SinkRegistry.builtin.named? (commandName "RUN")).isSome = true) := by
  have hgo : SinkRegistry.builtin.evaluates (regainedAlias.aliases .builtin) "go" = true := by
    decide +kernel
  refine ⟨rfl, hgo, ?_⟩
  -- The definitions in the order of the positions, of which the second is looked at.
  obtain ⟨before, rest, hpositions, -, hrest⟩ := List.map_eq_append_iff.1
    (show regainedAlias.positions.map (fun q => (q.path, q.node.aliasDefinition? .builtin)) =
      [([.statement 0], some ("run", "Get-Item")), ([.statement 0, .name], none),
        ([.statement 0, .argument 0], none), ([.statement 0, .argument 1], none)] ++
      ([.statement 1], some ("RUN", "go")) ::
      [([.statement 1, .name], none), ([.statement 1, .argument 0], none),
        ([.statement 1, .argument 1], none), ([.statement 2], some ("go", "iex")),
        ([.statement 2, .name], none), ([.statement 2, .argument 0], none),
        ([.statement 2, .argument 1], none), ([.statement 3], some ("run", "Add-Type")),
        ([.statement 3, .name], none), ([.statement 3, .argument 0], none),
        ([.statement 3, .argument 1], none)] by decide +kernel)
  obtain ⟨q, after, rfl, hq, hafter⟩ := List.map_eq_cons_iff.1 hrest
  obtain ⟨c, hc, hdefines⟩ := Node.aliasDefinition?_eq_some_iff.1 (Prod.mk.inj hq).2
  refine alias_of_evaluator_evaluates regainedAlias .builtin hpositions hc hdefines hgo ?_
  intro mid q' rest c' name' target' hsplit hc' hdefines' hsame _
  have hq' : q' ∈ after := by simp [hsplit]
  have hmem := List.mem_map_of_mem (f := fun q => (q.path, q.node.aliasDefinition? .builtin)) hq'
  rw [hafter, Node.aliasDefinition?_eq_some_iff.2 ⟨c', hc', hdefines'⟩] at hmem
  simp only [List.mem_cons, Prod.mk.injEq, Option.some.injEq, reduceCtorEq, and_false, false_or,
    List.not_mem_nil, or_false] at hmem
  rcases hmem with ⟨-, rfl, rfl⟩ | ⟨-, rfl, rfl⟩
  · exact absurd hsame (by decide +kernel)
  · decide +kernel

/-- A command defines an alias, under the aliases of its file, for a name that evaluates code. Yet
the alias means nothing: the definition goes through an alias, or a later one replaces it. -/
theorem hidden_evaluator_aliases :
    (∃ c t, t = aliasScript [aliasCommand 0 "Set-Alias" "def" "Set-Alias", c] ∧
      t.find? [.statement 1] = some (t.root, .command c) ∧
      (SinkRegistry.builtin.commandSink? (t.aliases .builtin) c).map (·.category) =
        some .aliasDefinition ∧
      (c.argument? ["Name"] (some 0)).bind Node.literal? = some "run" ∧
      (c.argument? ["Value"] (some 1)).bind Node.literal? = some "iex" ∧
      SinkRegistry.builtin.evaluates (t.aliases .builtin) "iex" = true ∧
      SinkRegistry.builtin.resolve? (t.aliases .builtin) "run" = none) ∧
    (∃ c t, t = aliasScript [c, aliasCommand 20 "Set-Alias" "run" "Get-Item"] ∧
      t.find? [.statement 0] = some (t.root, .command c) ∧
      c.Defines .builtin "run" "iex" ∧
      SinkRegistry.builtin.evaluates (t.aliases .builtin) "iex" = true ∧
      SinkRegistry.builtin.resolve? (t.aliases .builtin) "run" = none) := by
  constructor
  · refine ⟨aliasCommand 20 "def" "run" "iex", _, rfl, rfl, ?_⟩
    decide +kernel
  · refine ⟨aliasCommand 0 "Set-Alias" "run" "iex", _, rfl, rfl,
      Command.aliasDefinition?_eq_some_iff.1 ?_, ?_⟩
    · decide +kernel
    · decide +kernel

end ScriptTaint
