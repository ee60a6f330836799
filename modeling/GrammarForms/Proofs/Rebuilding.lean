import GrammarForms.Proofs.InOrder
import GrammarForms.Proofs.RuleSets
import GrammarForms.Proofs.Unfolding

/-!
# Rebuilt Grammars

A grammar that begins with its start symbol keeps the order of its nonterminals when it is rebuilt, and it
is what its own rules make of it.

A transformation supplements a grammar if it puts one rule in the place of each rule and adds one rule for
each new nonterminal, so that unfolding the new nonterminals gives the old rules back.  The new
nonterminals then come after the old ones, no two of the rules become the same, and unfolding recovers the
rules of each old nonterminal in their order.
-/

namespace GrammarForms

namespace Grammar

variable {g : Grammar} {name : Char}

/-! ## The nonterminals -/

theorem names_declare_of_notMem (h : name ∉ g.names) : (g.declare name).names = g.names ++ [name] := by
  rw [declare, if_neg h, names, List.map_append]
  rfl

/-- Steps that declare different new nonterminals append them. -/
theorem names_foldl_of_nodup {α : Type} {step : Grammar → α → Grammar} (declared : α → Char)
    (hstep : ∀ g x, (step g x).names = (g.declare (declared x)).names) {xs : List α}
    (nodup : (g.names ++ xs.map declared).Nodup) :
    (xs.foldl step g).names = g.names ++ xs.map declared := by
  induction xs generalizing g with
  | nil => rw [List.foldl_nil, List.map_nil, List.append_nil]
  | cons x rest ih =>
    rw [List.map_cons] at nodup
    have fresh : declared x ∉ g.names := fun mem ↦
      List.disjoint_of_nodup_append nodup mem List.mem_cons_self
    have hnames : (step g x).names = g.names ++ [declared x] := by
      rw [hstep, names_declare_of_notMem fresh]
    rw [List.foldl_cons, ih, hnames, List.append_assoc, List.singleton_append, List.map_cons]
    rwa [hnames, List.append_assoc, List.singleton_append]

/-- The skeleton of a grammar that begins with its start symbol has its names in order. -/
theorem names_skeleton (nodup : g.names.Nodup) (fronted : g.Fronted) : g.skeleton.names = g.names := by
  have ⟨rest, hnames⟩ := List.head?_eq_some_iff.1 fronted
  have hstart : (ofStart g.start).declare g.start = ofStart g.start := if_pos (List.mem_singleton.2 rfl)
  have hdeclare (built : Grammar) (name : Char) :
      (declare built name).names = (built.declare (id name)).names := rfl
  rw [hnames] at nodup
  rw [skeleton, hnames, List.foldl_cons, hstart, names_foldl_of_nodup id hdeclare, List.map_id]
  · rfl
  · rwa [List.map_id]

theorem names_foldl_addRule {productions : List Production} (h : ∀ p ∈ productions, p.left ∈ g.names) :
    (productions.foldl (fun built p ↦ built.addRule p.left p.right) g).names = g.names := by
  induction productions generalizing g with
  | nil => rfl
  | cons p rest ih =>
    have ⟨hp, hrest⟩ := List.forall_mem_cons.1 h
    have hnames : (g.addRule p.left p.right).names = g.names := by
      rw [addRule, names_alter, declare, if_pos hp]
    rw [List.foldl_cons, ih, hnames]
    rwa [hnames]

/-! ## The rules -/

theorem map_rules (nodup : g.names.Nodup) :
    g.names.map (fun name ↦ ⟨name, g.rules name⟩) = g.entries := by
  rw [names, List.map_map]
  conv => rhs; rw [← List.map_id g.entries]
  apply List.map_congr_left
  intro entry mem
  rw [Function.comp_apply, rules_of_mem nodup mem]
  rfl

theorem filter_productions_entry (entry : Entry) (name : Char) :
    (entry.productions.filter (·.left == name)).map (·.right) =
      if entry.name = name then entry.rules else [] := by
  rw [Entry.productions, List.filter_map, List.map_map]
  by_cases h : entry.name = name <;> simp [Function.comp_def, h]

/-- Sorting out the productions of one nonterminal gives its rules in order. -/
theorem filter_productions (nodup : g.names.Nodup) (name : Char) :
    (g.productions.filter (·.left == name)).map (·.right) = g.rules name := by
  suffices ∀ entries : List Entry, (entries.map (·.name)).Nodup →
      ((entries.flatMap Entry.productions).filter (·.left == name)).map (·.right) =
        ((entries.find? (·.name == name)).map (·.rules)).getD [] from
    this g.entries nodup
  intro entries nodup
  induction entries with
  | nil => rfl
  | cons entry rest ih =>
    rw [List.map_cons, List.nodup_cons] at nodup
    rw [List.flatMap_cons, List.filter_append, List.map_append, filter_productions_entry, ih nodup.2]
    by_cases h : entry.name = name
    · have hrest : rest.find? (·.name == name) = none := by
        rw [List.find?_eq_none]
        intro other mem hother
        exact nodup.1 (List.mem_map.2 ⟨other, mem, (beq_iff_eq.1 hother).trans h.symm⟩)
      simp [h, hrest]
    · simp [h]

theorem nodup_productions (wf : g.WellFormed) : g.productions.Nodup := by
  rw [productions, List.nodup_flatMap]
  constructor
  · intro entry mem
    apply (wf.rules_nodup entry mem).map
    exact fun _ _ h ↦ congrArg Production.right h
  · apply (List.pairwise_map.1 wf.names_nodup).imp
    intro entry other hne p hp hp'
    have ⟨_, _, hleft⟩ := List.mem_map.1 hp
    have ⟨_, _, hleft'⟩ := List.mem_map.1 hp'
    exact hne (congrArg Production.left (hleft.trans hleft'.symm))

/-! ## A grammar and its own rules -/

/-- A grammar that begins with its start symbol is what its own rules make of it. -/
theorem rebuild_productions (wf : g.WellFormed) (fronted : g.Fronted) : g.rebuild g.productions = g := by
  have hskeleton := names_skeleton wf.names_nodup fronted
  have hnames : (g.rebuild g.productions).names = g.names := by
    rw [rebuild, names_foldl_addRule, hskeleton]
    intro p hp
    rw [hskeleton]
    exact left_mem_names hp
  have hrules (name : Char) : (g.rebuild g.productions).rules name = g.rules name := by
    rw [rules_rebuild, filter_productions wf.names_nodup, distinct_eq_self (nodup_rules wf name)]
  have hentries : (g.rebuild g.productions).entries = g.entries := by
    rw [← map_rules (wellFormed_rebuild g _).names_nodup, ← map_rules wf.names_nodup, hnames]
    simp only [hrules]
  have hstart : (g.rebuild g.productions).start = g.start := start_rebuild g _
  calc
    g.rebuild g.productions = ⟨(g.rebuild g.productions).entries, (g.rebuild g.productions).start⟩ := rfl
    _ = g := by rw [hentries, hstart]

/-! ## Supplemented grammars -/

/-- The heads stand in the place of the rules, to which they unfold, and each of the extras is the rule of
another new nonterminal. -/
structure Supplemented (g : Grammar) (image : Char → Rule) (heads extras : List Production) : Prop where
  unfold_heads : heads.map (fun p ↦ ⟨p.left, Rule.unfold image p.right⟩) = g.productions
  nodup : (g.names ++ extras.map (·.left)).Nodup

namespace Supplemented

variable {image : Char → Rule} {heads extras : List Production}
  (supplemented : g.Supplemented image heads extras)

include supplemented

theorem left_mem_names_of_mem_heads {p : Production} (hp : p ∈ heads) : p.left ∈ g.names := by
  have hmem : ⟨p.left, Rule.unfold image p.right⟩ ∈ g.productions := by
    rw [← supplemented.unfold_heads]
    exact List.mem_map_of_mem hp
  exact left_mem_names (p := ⟨p.left, Rule.unfold image p.right⟩) hmem

theorem left_notMem_names_of_mem_extras {p : Production} (hp : p ∈ extras) : p.left ∉ g.names := fun h ↦
  List.disjoint_of_nodup_append supplemented.nodup h (List.mem_map_of_mem hp)

/-- Supplements come after all old nonterminals. -/
theorem names_rebuild (nodup : g.names.Nodup) (fronted : g.Fronted) :
    (g.rebuild (heads ++ extras)).names = g.names ++ extras.map (·.left) := by
  have hskeleton := names_skeleton nodup fronted
  have hheads : (heads.foldl (fun built p ↦ built.addRule p.left p.right) g.skeleton).names = g.names := by
    rw [names_foldl_addRule, hskeleton]
    intro p hp
    rw [hskeleton]
    exact supplemented.left_mem_names_of_mem_heads hp
  have haddRule (built : Grammar) (p : Production) :
      (built.addRule p.left p.right).names = (built.declare p.left).names := names_alter built p.left _
  rw [rebuild, List.foldl_append, names_foldl_of_nodup Production.left haddRule, hheads]
  rw [hheads]
  exact supplemented.nodup

/-- The rules of an old nonterminal are recovered, none of them twice. -/
theorem map_unfold_rules_rebuild (wf : g.WellFormed) (hname : name ∈ g.names) :
    ((g.rebuild (heads ++ extras)).rules name).map (Rule.unfold image) = g.rules name := by
  have hextras : extras.filter (·.left == name) = [] := by
    rw [List.filter_eq_nil_iff]
    intro p hp hleft
    exact supplemented.left_notMem_names_of_mem_extras hp (beq_iff_eq.1 hleft ▸ hname)
  have hheads : ((heads.filter (·.left == name)).map (·.right)).map (Rule.unfold image) = g.rules name := by
    rw [← filter_productions wf.names_nodup, ← supplemented.unfold_heads, List.filter_map, List.map_map,
      List.map_map]
    rfl
  -- Heads that became the same would unfold to the same rule.
  have hnodup : ((heads.filter (·.left == name)).map (·.right)).Nodup := by
    apply List.Nodup.of_map (Rule.unfold image)
    rw [hheads]
    exact nodup_rules wf name
  rw [rules_rebuild, List.filter_append, hextras, List.append_nil, distinct_eq_self hnodup, hheads]

/-- A supplement has the rule it was added with and no other. -/
theorem rules_rebuild_of_mem_extras {p : Production} (hp : p ∈ extras) :
    (g.rebuild (heads ++ extras)).rules p.left = [p.right] := by
  have hnodup := nodup_rules (wellFormed_rebuild g (heads ++ extras)) p.left
  apply List.perm_singleton.1
  apply (List.perm_ext_iff_of_nodup hnodup (List.nodup_singleton _)).2
  intro rule
  rw [mem_rules_rebuild, List.mem_append, List.mem_singleton]
  constructor
  · rintro (hrule | hrule)
    · have hnew := supplemented.left_notMem_names_of_mem_extras hp
      exact absurd (supplemented.left_mem_names_of_mem_heads hrule) hnew
    · have hinj := List.inj_on_of_nodup_map (List.Nodup.of_append_right supplemented.nodup)
      exact congrArg Production.right (hinj hrule hp rfl)
  · rintro rfl
    exact Or.inr hp

/-- The rebuilt grammar has the productions it was given, none of them merged with another. -/
theorem productions_rebuild_perm (wf : g.WellFormed) :
    (g.rebuild (heads ++ extras)).productions.Perm (heads ++ extras) := by
  have wf' := wellFormed_rebuild g (heads ++ extras)
  have hheads : heads.Nodup := by
    apply List.Nodup.of_map (fun p ↦ (⟨p.left, Rule.unfold image p.right⟩ : Production))
    rw [supplemented.unfold_heads]
    exact nodup_productions wf
  have hextras : extras.Nodup :=
    List.Nodup.of_map _ (List.Nodup.of_append_right supplemented.nodup)
  have hnodup : (heads ++ extras).Nodup := by
    refine List.nodup_append.2 ⟨hheads, hextras, fun p hp q hq e ↦ ?_⟩
    have hold := supplemented.left_mem_names_of_mem_heads hp
    exact supplemented.left_notMem_names_of_mem_extras hq (e ▸ hold)
  apply (List.perm_ext_iff_of_nodup (nodup_productions wf') hnodup).2
  intro p
  rw [mem_productions wf'.names_nodup, mem_rules_rebuild]

end Supplemented

end Grammar

end GrammarForms
