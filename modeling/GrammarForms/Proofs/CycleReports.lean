import GrammarForms.Greibach
import GrammarForms.Proofs.FreshStart
import GrammarForms.Proofs.Rebuilding
import GrammarForms.Proofs.UnitCycles
import Mathlib

/-!
# One Report of Unit Cycles

All normalizations of a grammar that begins with its start symbol report the same unit cycles in the same
order, although a kept empty word gives a start symbol another rule, and a new start symbol may come in
front.  The walk along unit rules depends on nothing but the targets of the unit rules of each nonterminal,
in their order, and no cycle goes through a nonterminal that no rule mentions.
-/

namespace GrammarForms

/-! ## The walk by its targets -/

/-- The two nonterminals of a unit rule. -/
def Production.unitEdge? (p : Production) : Option (Char × Char) :=
  (Rule.soleNonterminal? p.right).map (Prod.mk p.left)

/-- From the edges of an agenda the walk meets these edges.  An edge to a nonterminal that was visited leads
no further, and any other edge is followed by the edges of its target. -/
inductive Walk (targets : Char → List Char) :
    List Char → List (Char × Char) → List (Char × Char) → Prop where
  | nil (visited : List Char) : Walk targets visited [] []
  | pass {visited : List Char} {rest met : List (Char × Char)} {source name : Char}
      (h : name ∈ visited) (walk : Walk targets visited rest met) :
      Walk targets visited ((source, name) :: rest) ((source, name) :: met)
  | enter {visited : List Char} {rest met : List (Char × Char)} {source name : Char}
      (h : name ∉ visited)
      (walk : Walk targets (name :: visited) ((targets name).map (Prod.mk name) ++ rest) met) :
      Walk targets visited ((source, name) :: rest) ((source, name) :: met)

section Walk

variable {targets others : Char → List Char} {visited : List Char} {agenda met met' : List (Char × Char)}

/-- The targets and the agenda determine what is met. -/
theorem Walk.eq (walk : Walk targets visited agenda met) (walk' : Walk targets visited agenda met') :
    met = met' := by
  induction walk generalizing met' with
  | nil => cases walk'; rfl
  | pass h _ ih =>
    cases walk' with
    | pass _ walk' => rw [ih walk']
    | enter h' _ => exact absurd h h'
  | enter h _ ih =>
    cases walk' with
    | pass h' _ => exact absurd h' h
    | enter _ walk' => rw [ih walk']

/-- A walk goes on inside a set that its edges do not leave, so it depends on the targets inside alone. -/
theorem Walk.congr {inside : Char → Prop} (walk : Walk targets visited agenda met)
    (same : ∀ name, inside name → targets name = others name)
    (closed : ∀ name, inside name → ∀ target ∈ targets name, inside target)
    (hagenda : ∀ edge ∈ agenda, inside edge.2) : Walk others visited agenda met := by
  induction walk with
  | nil visited => exact .nil visited
  | pass h _ ih => exact .pass h (ih (List.forall_mem_cons.1 hagenda).2)
  | @enter _ rest _ source name h _ ih =>
    obtain ⟨hname, hrest⟩ := List.forall_mem_cons.1 hagenda
    refine .enter h (same name hname ▸ ih ?_)
    refine List.forall_mem_append.2 ⟨?_, hrest⟩
    rw [List.forall_mem_map]
    exact closed name hname

end Walk

namespace Grammar

variable {g h : Grammar} {policy : EmptyWordPolicy} {name root start : Char} {inside : Char → Prop}

/-- The nonterminals to which the unit rules of a nonterminal lead, in order. -/
def unitTargets (g : Grammar) (name : Char) : List Char :=
  (g.rules name).filterMap Rule.soleNonterminal?

/-- The targets of a nonterminal are where its unit rules lead. -/
theorem mem_unitTargets {target : Char} : target ∈ g.unitTargets name ↔ g.UnitStep name target := by
  rw [unitTargets, List.mem_filterMap]
  simp only [Rule.soleNonterminal?_eq_some, UnitStep, exists_eq_right]

theorem filterMap_unitEdge? (name : Char) (rules : List Rule) :
    (rules.map (Production.mk name)).filterMap Production.unitEdge? =
      (rules.filterMap Rule.soleNonterminal?).map (Prod.mk name) := by
  rw [List.filterMap_map, List.map_filterMap]
  rfl

theorem unitTargets_of_find?_eq_none (h : g.find? name = none) : g.unitTargets name = [] := by
  rw [unitTargets, rules, h]
  rfl

/-- The unit rules of an entry lead to the targets of its nonterminal. -/
theorem filterMap_unitEdge?_productions {entry : Entry} (h : g.find? name = some entry) :
    entry.productions.filterMap Production.unitEdge? = (g.unitTargets name).map (Prod.mk name) := by
  rw [Entry.productions, filterMap_unitEdge?, find?_name h, unitTargets, rules, h]
  rfl

/-- The edges that `followUnits` meets are met by a walk. -/
theorem walk_followUnits {visited : List Char} {unvisited : List Entry} {agenda : List Production}
    (hvisited : ∀ name, unvisited.find? (·.name == name) =
      if name ∈ visited then none else g.find? name) :
    Walk g.unitTargets visited (agenda.filterMap Production.unitEdge?)
      ((followUnits unvisited agenda).filterMap Production.unitEdge?) := by
  have hedge {p : Production} {name : Char} (h : Rule.soleNonterminal? p.right = some name) :
      p.unitEdge? = some (p.left, name) := by
    rw [Production.unitEdge?, h]
    rfl
  fun_induction followUnits unvisited agenda generalizing visited with
  | case1 => exact .nil visited
  | case2 unvisited p rest found ih =>
    cases hunit : Rule.soleNonterminal? p.right with
    | none =>
      have hnone : p.unitEdge? = none := by
        rw [Production.unitEdge?, hunit]
        rfl
      rw [List.filterMap_cons_none hnone, List.filterMap_cons_none hnone]
      exact ih hvisited
    | some name =>
      rw [List.filterMap_cons_some (hedge hunit), List.filterMap_cons_some (hedge hunit)]
      by_cases hname : name ∈ visited
      · exact .pass hname (ih hvisited)
      · -- The nonterminal has no entry, so it does not matter that it now counts as visited.
        have hfind : g.find? name = none := by
          rw [hunit, Option.bind_some, hvisited, if_neg hname] at found
          exact found
        refine .enter hname ?_
        rw [unitTargets_of_find?_eq_none hfind, List.map_nil, List.nil_append]
        refine ih fun other ↦ ?_
        by_cases e : other = name <;> simp [hvisited, e, hfind]
  | case3 unvisited p rest entry found ih =>
    obtain ⟨name, hunit, hfind⟩ := Option.bind_eq_some_iff.1 found
    have hentry : entry.name = name := by simpa using List.find?_some hfind
    rw [List.filterMap_cons_some (hedge hunit), List.filterMap_cons_some (hedge hunit)]
    have hname : name ∉ visited := by
      intro h
      rw [hvisited, if_pos h] at hfind
      cases hfind
    rw [hvisited, if_neg hname] at hfind
    refine .enter hname ?_
    rw [← filterMap_unitEdge?_productions hfind, ← List.filterMap_append]
    refine ih fun other ↦ ?_
    rw [hentry, find?_visit, hvisited]
    by_cases e : other = name <;> simp [e]

/-- Following the unit rules of a root is a walk over the targets that begins at the root. -/
theorem walk_unitReach (g : Grammar) (root : Char) :
    Walk g.unitTargets [root] ((g.unitTargets root).map (Prod.mk root))
      ((g.unitReach root).filterMap Production.unitEdge?) := by
  rw [unitTargets, ← filterMap_unitEdge?]
  apply walk_followUnits
  intro name
  simp [find?_visit, find?]

/-- The cycles found at a root are the edges of its walk that come back to it. -/
theorem unitCyclesAt_eq_filterMap (g : Grammar) (root : Char) :
    g.unitCyclesAt root = ((g.unitReach root).filterMap Production.unitEdge?).filterMap fun edge ↦
      if edge.2 = root then some ⟨root, edge.1⟩ else none := by
  rw [unitCyclesAt, List.filterMap_filterMap]
  congr 1
  funext p
  rw [Production.unitEdge?]
  cases Rule.soleNonterminal? p.right <;> simp

/-- The cycles found at a root depend only on the unit rules it can follow. -/
theorem unitCyclesAt_congr (inside : Char → Prop)
    (same : ∀ name, inside name → g.unitTargets name = h.unitTargets name)
    (closed : ∀ name, inside name → ∀ target ∈ g.unitTargets name, inside target) (hroot : inside root) :
    g.unitCyclesAt root = h.unitCyclesAt root := by
  have hagenda : ∀ edge ∈ (g.unitTargets root).map (Prod.mk root), inside edge.2 := by
    rw [List.forall_mem_map]
    exact closed root hroot
  have walk := (g.walk_unitReach root).congr same closed hagenda
  rw [same root hroot] at walk
  rw [unitCyclesAt_eq_filterMap, unitCyclesAt_eq_filterMap, walk.eq (h.walk_unitReach root)]

/-! ## Grammars that agree on some nonterminals -/

/-- On nonterminals whose rules mention only such nonterminals the grammars have the same rules. -/
structure AgreeOn (g h : Grammar) (inside : Char → Prop) : Prop where
  rules_eq : ∀ name, inside name → g.rules name = h.rules name
  mem_names : ∀ name, inside name → (name ∈ g.names ↔ name ∈ h.names)
  closed : ∀ name, inside name → ∀ rule ∈ g.rules name, ∀ other ∈ Rule.nonterminals rule, inside other

namespace AgreeOn

variable (agree : g.AgreeOn h inside)

include agree

theorem symm : h.AgreeOn g inside where
  rules_eq := fun name hname ↦ (agree.rules_eq name hname).symm
  mem_names := fun name hname ↦ (agree.mem_names name hname).symm
  closed := fun name hname ↦ agree.rules_eq name hname ▸ agree.closed name hname

theorem mem_nullable : ∀ name ∈ g.nullable, inside name → name ∈ h.nullable := by
  apply leastSet_induction
  intro members name hmembers _ hany hname
  obtain ⟨rule, mem, hrule⟩ := List.any_eq_true.1 hany
  refine mem_nullable_of_rule (agree.rules_eq name hname ▸ mem) (Rule.isNullable_iff.2 ?_)
  intro symbol hsymbol
  obtain ⟨other, rfl, hother⟩ := Rule.isNullable_iff.1 hrule symbol hsymbol
  have hinside := agree.closed name hname rule mem other (Rule.mem_nonterminals.2 hsymbol)
  exact ⟨other, rfl, hmembers other hother hinside⟩

theorem mem_barren : ∀ name ∈ g.barren, inside name → name ∈ h.barren := by
  refine mem_barren_of_mem_barren inside ?_ ?_ agree.symm.closed
  · exact fun name hname ↦ (agree.mem_names name hname).1
  · exact fun name hname ↦ agree.rules_eq name hname ▸ List.Subset.refl _

theorem mem_nullable_iff (hname : inside name) : name ∈ g.nullable ↔ name ∈ h.nullable :=
  ⟨fun h ↦ agree.mem_nullable name h hname, fun h ↦ agree.symm.mem_nullable name h hname⟩

theorem mem_barren_iff (hname : inside name) : name ∈ g.barren ↔ name ∈ h.barren :=
  ⟨fun h ↦ agree.mem_barren name h hname, fun h ↦ agree.symm.mem_barren name h hname⟩

end AgreeOn

/-! ## Names and rules in order -/

/-- The new rules of a nonterminal, in the order of the rules that they come from. -/
theorem rules_withVariants (nodup : g.names.Nodup) (name : Char) :
    g.withVariants.rules name = distinct ((g.rules name).flatMap (Rule.variants g.nullable)) := by
  have hfilter : ∀ productions : List Production,
      ((productions.flatMap fun p ↦ (Rule.variants g.nullable p.right).map (Production.mk p.left)).filter
          (·.left == name)).map (·.right) =
        ((productions.filter (·.left == name)).map (·.right)).flatMap (Rule.variants g.nullable) := by
    intro productions
    induction productions with
    | nil => rfl
    | cons p rest ih =>
      rw [List.flatMap_cons, List.filter_append, List.map_append, ih, List.filter_map, List.map_map]
      by_cases e : p.left = name <;> simp [Function.comp_def, e]
  rw [withVariants, rules_rebuild, hfilter, filter_productions nodup]

theorem names_withVariants (nodup : g.names.Nodup) (fronted : g.Fronted) :
    g.withVariants.names = g.names := by
  have hskeleton := names_skeleton nodup fronted
  rw [withVariants, rebuild, names_foldl_addRule, hskeleton]
  intro p hp
  obtain ⟨source, hsource, hp⟩ := List.mem_flatMap.1 hp
  obtain ⟨_, _, rfl⟩ := List.mem_map.1 hp
  have hname : source.left ∈ g.names := left_mem_names hsource
  rwa [hskeleton]

/-- Grammars that agree on some nonterminals agree on the variants there. -/
theorem AgreeOn.withVariants (agree : g.AgreeOn h inside) (nodup : g.names.Nodup)
    (nodup' : h.names.Nodup) (fronted : g.Fronted) (fronted' : h.Fronted) :
    g.withVariants.AgreeOn h.withVariants inside where
  rules_eq := by
    intro name hname
    rw [rules_withVariants nodup, rules_withVariants nodup', ← agree.rules_eq name hname]
    congr 1
    rw [List.flatMap_congr]
    intro rule mem
    apply Rule.variants_congr
    exact fun other hother ↦ agree.mem_nullable_iff (agree.closed name hname rule mem other hother)
  mem_names := by
    rw [names_withVariants nodup fronted, names_withVariants nodup' fronted']
    exact agree.mem_names
  closed := by
    intro name hname variant mem other hother
    obtain ⟨rule, mem, hvariant⟩ := (mem_rules_withVariants nodup).1 mem
    exact agree.closed name hname rule mem other
      (Rule.nonterminals_subset_of_mem_variants hvariant hother)

theorem AgreeOn.rules_withoutBarren_eq (agree : g.AgreeOn h inside) (hname : inside name) :
    g.withoutBarren.rules name = h.withoutBarren.rules name := by
  rw [rules_withoutBarren, rules_withoutBarren, ← agree.rules_eq name hname]
  apply List.filter_congr
  intro rule mem
  rw [Rule.mentionsAny_congr fun other hother ↦
    agree.mem_barren_iff (agree.closed name hname rule mem other hother)]

/-! ## The unit rules without empty rules -/

/-- The grammar without empty rules, before the start symbol gets its own one back. -/
abbrev pruned (g : Grammar) : Grammar :=
  g.withVariants.withoutBarren

/-- Restoring the empty rule at the start adds no unit rule. -/
theorem unitTargets_withoutEmptyRules (g : Grammar) (policy : EmptyWordPolicy) (name : Char) :
    (g.withoutEmptyRules policy).unitTargets name = g.pruned.unitTargets name := by
  have hempty (rules : List Rule) : (appendNew rules []).filterMap Rule.soleNonterminal? =
      rules.filterMap Rule.soleNonterminal? := by
    unfold appendNew
    split
    · rfl
    · simp [Rule.soleNonterminal?]
  unfold withoutEmptyRules
  split
  · rw [unitTargets, rules_addRule, unitTargets]
    split
    · rename_i e
      rw [hempty, e]
    · rfl
  · rfl

theorem names_pruned (nodup : g.names.Nodup) (fronted : g.Fronted) :
    g.pruned.names =
      g.names.filter fun name ↦ name == g.start || !g.withVariants.barren.contains name := by
  have hstart : g.withVariants.start = g.start := start_rebuild g _
  rw [pruned, withoutBarren, names_keepEntries _ (!g.withVariants.barren.contains ·), names_keepRules,
    names_withVariants nodup fronted]
  exact congrArg (fun start ↦ g.names.filter fun name ↦
    name == start || !g.withVariants.barren.contains name) hstart

theorem names_withoutEmptyRules (nodup : g.names.Nodup) (fronted : g.Fronted) :
    (g.withoutEmptyRules policy).names = g.pruned.names := by
  unfold withoutEmptyRules
  split
  · have hstart : g.start ∈ g.pruned.names := by
      rw [names_pruned nodup fronted]
      exact List.mem_filter.2 ⟨fronted.start_mem, by simp⟩
    rw [addRule, names_alter, declare, if_pos hstart]
  · rfl

/-- A barren nonterminal has lost its rules, so no cycle is found there. -/
theorem unitCyclesAt_pruned_of_mem_barren (h : name ∈ g.withVariants.barren) :
    g.pruned.unitCyclesAt name = [] :=
  unitCyclesAt_eq_nil (wellFormed_withoutBarren_withVariants g).names_nodup fun _ step ↦
    (mem_rules_withoutBarren.1 step).2 name (Rule.mem_nonterminals_cons_self name []) h

theorem flatMap_filter_of_eq_nil {α β : Type} {keep : α → Bool} {f : α → List β} {items : List α}
    (h : ∀ item ∈ items, keep item = false → f item = []) :
    (items.filter keep).flatMap f = items.flatMap f := by
  induction items with
  | nil => rfl
  | cons first rest ih =>
    obtain ⟨hfirst, hrest⟩ := List.forall_mem_cons.1 h
    rw [List.flatMap_cons, ← ih hrest, List.filter_cons]
    split
    · rw [List.flatMap_cons]
    · rename_i hkeep
      rw [hfirst (Bool.not_eq_true _ ▸ hkeep), List.nil_append]

/-- The cycles are met from the nonterminals of the source in their order. -/
theorem cyclesMet_eq (nodup : g.names.Nodup) (fronted : g.Fronted) (policy : EmptyWordPolicy) :
    g.cyclesMet policy = distinct (g.names.flatMap g.pruned.unitCyclesAt) := by
  have hcycles : (g.withoutEmptyRules policy).unitCyclesAt = g.pruned.unitCyclesAt := by
    funext root
    refine unitCyclesAt_congr (fun _ ↦ True) ?_ ?_ trivial
    · exact fun name _ ↦ unitTargets_withoutEmptyRules g policy name
    · exact fun _ _ _ _ ↦ trivial
  have hleft : ∀ name ∈ g.names, (name == g.start || !g.withVariants.barren.contains name) = false →
      g.pruned.unitCyclesAt name = [] := by
    intro name _ hname
    apply unitCyclesAt_pruned_of_mem_barren
    simpa using (Bool.or_eq_false_iff.1 hname).2
  calc
    g.cyclesMet policy = distinct (g.pruned.names.flatMap g.pruned.unitCyclesAt) := by
      rw [cyclesMet, unitCycles, hcycles, names_withoutEmptyRules nodup fronted]
    _ = distinct (g.names.flatMap g.pruned.unitCyclesAt) := by
      rw [names_pruned nodup fronted, flatMap_filter_of_eq_nil hleft]

/-! ## A new start symbol -/

theorem rules_wrapStart (wf : g.WellFormed) (hstart : start ∉ g.names) (hname : name ≠ start) :
    (g.wrapStart start).rules name = g.rules name := by
  have hnames : ((⟨start, [[.nonterminal g.start]]⟩ :: g.entries : List Entry).map (·.name)).Nodup :=
    List.nodup_cons.2 ⟨hstart, wf.names_nodup⟩
  have hold : rules ⟨⟨start, [[.nonterminal g.start]]⟩ :: g.entries, start⟩ name = g.rules name := by
    simp [rules, find?, Ne.symm hname]
  rw [wrapStart, rules_ofEntries hnames, hold, distinct_eq_self (nodup_rules wf name)]

theorem names_wrapStart (nodup : g.names.Nodup) (hstart : start ∉ g.names) :
    (g.wrapStart start).names = start :: g.names := by
  have hstep (built : Grammar) (entry : Entry) :
      (built.replaceRules entry.name entry.rules).names = (built.declare entry.name).names :=
    names_alter built entry.name _
  have hfirst : ((ofStart start).replaceRules start [[.nonterminal g.start]]).names = [start] := by
    have hself : start ∈ (ofStart start).names := List.mem_singleton.2 rfl
    rw [replaceRules, names_alter, declare, if_pos hself]
    rfl
  rw [wrapStart, ofEntries, List.foldl_cons, names_foldl_of_nodup Entry.name hstep, hfirst]
  · rfl
  · rw [hfirst]
    exact List.nodup_cons.2 ⟨hstart, nodup⟩

variable {supply rest : NameSupply}

theorem agreeOn_wrapStart (wf : g.WellFormed) (covers : supply.Covers g)
    (drawn : supply.Drawn [start] rest) : (g.wrapStart start).AgreeOn g (· ≠ start) := by
  have hstart := covers.notMem_names drawn
  refine ⟨fun name ↦ rules_wrapStart wf hstart, ?_, ?_⟩
  · intro name hname
    rw [names_wrapStart wf.names_nodup hstart, List.mem_cons]
    exact or_iff_right hname
  · intro name hname rule mem other hother
    rw [rules_wrapStart wf hstart hname] at mem
    exact fun e ↦ covers.notMem_of_mem_nonterminals drawn mem hother (List.mem_singleton.2 e)

/-- No rule mentions the new start symbol, so it lies on no cycle and changes none. -/
theorem cyclesMet_wrapStart (wf : g.WellFormed) (fronted : g.Fronted) (covers : supply.Covers g)
    (drawn : supply.Drawn [start] rest) : (g.wrapStart start).cyclesMet policy = g.cyclesMet policy := by
  have hstart := covers.notMem_names drawn
  have wf' := wellFormed_wrapStart g start
  have fronted' : (g.wrapStart start).Fronted := fronted_ofEntries start _
  have agree := (agreeOn_wrapStart wf covers drawn).withVariants wf'.names_nodup wf.names_nodup fronted'
    fronted
  -- Nothing leads back to the new start symbol, since no rule mentions it.
  have hnew : (g.wrapStart start).pruned.unitCyclesAt start = [] := by
    apply unitCyclesAt_eq_nil (wellFormed_withoutBarren_withVariants _).names_nodup
    intro name step
    obtain ⟨source, mem, hvariant⟩ :=
      (mem_rules_withVariants wf'.names_nodup).1 (rules_withoutBarren_subset step)
    apply notMem_nonterminals_wrapStart wf.names_nodup covers drawn mem
    exact Rule.nonterminals_subset_of_mem_variants hvariant (Rule.mem_nonterminals_cons_self start [])
  -- From an old nonterminal the walk never comes to the new start symbol.
  have hold : ∀ name ∈ g.names,
      (g.wrapStart start).pruned.unitCyclesAt name = g.pruned.unitCyclesAt name := by
    intro name hname
    refine unitCyclesAt_congr (· ≠ start) ?_ ?_ (fun e ↦ hstart (e ▸ hname))
    · intro name hname
      rw [unitTargets, agree.rules_withoutBarren_eq hname, unitTargets]
    · intro name hname target htarget
      have mem := rules_withoutBarren_subset (mem_unitTargets.1 htarget)
      exact agree.closed name hname _ mem target (Rule.mem_nonterminals_cons_self target [])
  calc
    (g.wrapStart start).cyclesMet policy =
        distinct ((start :: g.names).flatMap (g.wrapStart start).pruned.unitCyclesAt) := by
      rw [cyclesMet_eq wf'.names_nodup fronted', names_wrapStart wf.names_nodup hstart]
    _ = distinct (g.names.flatMap g.pruned.unitCyclesAt) := by
      rw [List.flatMap_cons, hnew, List.nil_append, List.flatMap_congr hold]
    _ = g.cyclesMet policy := (cyclesMet_eq wf.names_nodup fronted policy).symm

/-- The fresh start symbol of a conversion adds no cycle and hides none. -/
theorem cyclesMet_of_freshStart {started : Grammar} (wf : g.WellFormed) (fronted : g.Fronted)
    (covers : supply.Covers g) (h : (g.freshStart policy).outcome supply = (.ok started, rest)) :
    started.cyclesMet policy = g.cyclesMet policy := by
  rcases freshStart_cases h with ⟨_, start, drawn, rfl⟩ | ⟨_, rfl, _⟩
  · exact cyclesMet_wrapStart wf fronted covers drawn
  · rfl

/-! ## Main result -/

/-- All normalizations report the same list of cycles.  It has a record for a nonterminal exactly if the
nonterminal derives itself in one or more steps, one for each nonterminal from which such a derivation
can return. -/
theorem exists_unitCycles_reported (order : g.InOrder) :
    ∃ cycles : List UnitCycle, cycles.Nodup ∧
      (∀ policy, (g.simplify policy).unitCycles = cycles) ∧
      (∀ policy supply n rest, g.names ⊆ supply.taken →
        (g.toChomsky policy).outcome supply = (.ok n, rest) → n.unitCycles = cycles) ∧
      (∀ supply n rest, g.names ⊆ supply.taken →
        g.toGreibach.outcome supply = (.ok n, rest) → n.unitCycles = cycles) ∧
      ∀ name,
        ((∃ via, ⟨name, via⟩ ∈ cycles) ↔
          ∃ next, g.Step [.nonterminal name] next ∧ g.Derives next [.nonterminal name]) ∧
        ∀ via, ⟨name, via⟩ ∈ cycles ↔ g.Derives [.nonterminal name] [.nonterminal via] ∧
          ∃ before after, before ++ .nonterminal name :: after ∈ g.rules via ∧
            ∀ symbol ∈ before ++ after, g.Derives [symbol] [] := by
  have wf := order.toWellFormed
  have hpolicy (policy : EmptyWordPolicy) : g.cyclesMet policy = g.cyclesMet .drop := by
    rw [cyclesMet_eq wf.names_nodup order.fronted, cyclesMet_eq wf.names_nodup order.fronted]
  have hmem (name via : Char) : ⟨name, via⟩ ∈ g.cyclesMet .drop ↔
      g.Derives [.nonterminal name] [.nonterminal via] ∧ g.ShrinksTo via name := by
    rw [derives_nonterminal_iff]
    exact mem_cyclesMet_iff wf.names_nodup
  refine ⟨g.cyclesMet .drop, nodup_distinct _, hpolicy, ?_, ?_, fun name ↦ ⟨?_, hmem name⟩⟩
  · intro policy supply n rest taken run
    obtain ⟨started, before, hstart, run⟩ := Naming.outcome_bind_eq_ok.1 run
    obtain ⟨_, _, _, run⟩ := Naming.outcome_bind_eq_ok.1 run
    obtain ⟨_, _, _, run⟩ := Naming.outcome_bind_eq_ok.1 run
    obtain ⟨rfl, -⟩ := Naming.outcome_pure_eq_ok.1 run
    have covers := NameSupply.covers_of_closed wf.names_nodup order.toClosed taken
    exact (cyclesMet_of_freshStart wf order.fronted covers hstart).trans (hpolicy policy)
  · intro supply n rest _ run
    obtain ⟨_, _, _, run⟩ := Naming.outcome_bind_eq_ok.1 run
    obtain ⟨rfl, -⟩ := Naming.outcome_pure_eq_ok.1 run
    rfl
  · rw [derives_self_iff, Relation.TransGen.tail'_iff]
    simp only [hmem, derives_nonterminal_iff]

/-- Two nonterminals that shrink to each other, a nonterminal that leads to itself, and a nonterminal that
becomes barren.  The start symbol is nullable and is mentioned, so a new one is introduced for it. -/
def circling : Grammar :=
  ⟨[⟨'S', [[.nonterminal 'E', .nonterminal 'A'], [.terminal 'a', .nonterminal 'S'], []]⟩,
    ⟨'A', [[.nonterminal 'S', .nonterminal 'E'], [.terminal 'b']]⟩,
    ⟨'E', [[]]⟩,
    ⟨'C', [[.nonterminal 'C']]⟩], 'S'⟩

def uncircled : Grammar :=
  ⟨[⟨'B', [[.terminal 'b'], [.nonterminal 'D', .nonterminal 'S'], [.terminal 'a'], []]⟩,
    ⟨'S', [[.terminal 'b'], [.nonterminal 'D', .nonterminal 'S'], [.terminal 'a']]⟩,
    ⟨'D', [[.terminal 'a']]⟩], 'B'⟩

theorem toChomsky_circling :
    (circling.toChomsky .keepAtStart).outcome (.avoiding circling) =
      (.ok ⟨uncircled, .kept, [⟨'S', 'A'⟩, ⟨'A', 'S'⟩, ⟨'C', 'C'⟩]⟩,
        ⟨['D', 'B', 'S', 'A', 'E', 'C']⟩) := by
  cbv

/-- Both cycles are reported, and the barren nonterminal is on neither. -/
theorem exists_unitCycles_reported_circling :
    circling.InOrder ∧ circling.names ⊆ (NameSupply.avoiding circling).taken ∧
      (circling.simplify .drop).unitCycles = [⟨'S', 'A'⟩, ⟨'A', 'S'⟩, ⟨'C', 'C'⟩] ∧
      (∃ next, circling.Step [.nonterminal 'A'] next ∧ circling.Derives next [.nonterminal 'A']) ∧
      ¬∃ next, circling.Step [.nonterminal 'E'] next ∧ circling.Derives next [.nonterminal 'E'] := by
  have defined : ∀ p ∈ circling.productions, Rule.nonterminals p.right ⊆ circling.names := by decide
  have order : circling.InOrder := {
    names_nodup := by decide
    rules_nodup := by decide
    start_mem := by decide
    defined := fun p hp _ h ↦ defined p hp h
    fronted := rfl }
  have taken : circling.names ⊆ (NameSupply.avoiding circling).taken := List.Subset.refl _
  obtain ⟨cycles, -, hsimplify, hchomsky, -, hmem⟩ := exists_unitCycles_reported order
  have hcycles := hchomsky _ _ _ _ taken toChomsky_circling
  rw [hsimplify]
  subst hcycles
  exact ⟨order, taken, rfl, (hmem 'A').1.1 ⟨'S', by decide⟩, fun h ↦ by simpa using (hmem 'E').1.2 h⟩

end Grammar

end GrammarForms
