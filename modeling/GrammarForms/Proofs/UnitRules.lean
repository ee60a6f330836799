import GrammarForms.Elimination.UnitRules
import GrammarForms.Proofs.Meaning
import Mathlib.Logic.Relation

/-!
# Languages without Unit Rules

The walk along unit rules meets exactly the rules of the nonterminals to which a chain of unit rules
leads: it meets nothing else, and at its end every chain has been followed.  A nonterminal has all the
words of the nonterminals that its chains lead to, so their other rules can stand in for the unit rules
and every language stays the same.
-/

namespace GrammarForms

/-! ## The walk -/

/-- A visit takes one entry off the list and leaves the others where lookups find them. -/
theorem find?_visit (unvisited : List Entry) (name other : Char) :
    (visit unvisited name).find? (·.name == other) =
      if other = name then none else unvisited.find? (·.name == other) := by
  rw [visit, List.find?_filter]
  split
  · rename_i h
    rw [List.find?_eq_none]
    intro entry _
    simp [h]
  · rename_i h
    congr 1
    funext entry
    by_cases e : entry.name = other <;> simp [e, h]

/-- Whatever is on the agenda is followed. -/
theorem agenda_subset_followUnits (unvisited : List Entry) (agenda : List Production) :
    agenda ⊆ followUnits unvisited agenda := by
  fun_induction followUnits unvisited agenda with
  | case1 => exact List.nil_subset _
  | case2 unvisited p rest found ih => exact List.cons_subset_cons p ih
  | case3 unvisited p rest entry found ih =>
    exact List.cons_subset_cons p fun q hq ↦ ih (List.mem_append_right _ hq)

/-- What every rule of the agenda has and what passes along unit rules, every rule met has. -/
theorem followUnits_induction {P : Production → Prop} {unvisited : List Entry}
    {agenda : List Production} (hagenda : ∀ p ∈ agenda, P p)
    (step : ∀ p, ∀ entry ∈ unvisited, P p → p.right = [.nonterminal entry.name] →
      ∀ q ∈ entry.productions, P q) :
    ∀ p ∈ followUnits unvisited agenda, P p := by
  fun_induction followUnits unvisited agenda with
  | case1 => simp
  | case2 unvisited p rest found ih =>
    obtain ⟨hp, hrest⟩ := List.forall_mem_cons.1 hagenda
    exact List.forall_mem_cons.2 ⟨hp, ih hrest step⟩
  | case3 unvisited p rest entry found ih =>
    obtain ⟨hp, hrest⟩ := List.forall_mem_cons.1 hagenda
    obtain ⟨name, hname, hfind⟩ := Option.bind_eq_some_iff.1 found
    have hentry : entry.name = name := by simpa using List.find?_some hfind
    have hunit : p.right = [.nonterminal entry.name] :=
      hentry ▸ Rule.soleNonterminal?_eq_some.1 hname
    refine List.forall_mem_cons.2 ⟨hp, ih ?_ fun p other hother ↦ ?_⟩
    · refine List.forall_mem_append.2 ⟨?_, hrest⟩
      exact step p entry (List.mem_of_find?_eq_some hfind) hp hunit
    · exact step p other (List.mem_filter.1 hother).1

/-- The walk leaves no unit rule that leads to an entry it could visit. -/
theorem productions_subset_followUnits {unvisited : List Entry} {agenda : List Production}
    {p : Production} (hp : p ∈ followUnits unvisited agenda) {name : Char}
    (hunit : p.right = [.nonterminal name]) {target : Entry}
    (htarget : unvisited.find? (·.name == name) = some target) :
    target.productions ⊆ followUnits unvisited agenda := by
  fun_induction followUnits unvisited agenda with
  | case1 => simp at hp
  | case2 unvisited first rest found ih =>
    apply List.subset_cons_of_subset first
    rcases List.mem_cons.1 hp with rfl | hp
    · simp [hunit, Rule.soleNonterminal?, htarget] at found
    · exact ih hp htarget
  | case3 unvisited first rest entry found ih =>
    apply List.subset_cons_of_subset first
    have hentry : entry.productions ⊆
        followUnits (visit unvisited entry.name) (entry.productions ++ rest) := fun q hq ↦
      agenda_subset_followUnits _ _ (List.mem_append_left _ hq)
    rcases List.mem_cons.1 hp with rfl | hp
    · have e : target = entry := by simpa [hunit, Rule.soleNonterminal?, htarget] using found
      exact e ▸ hentry
    -- The target was taken off the list just now, or it is still there for the rest of the walk.
    · by_cases e : name = entry.name
      · obtain ⟨other, -, hfind⟩ := Option.bind_eq_some_iff.1 found
        have hother : entry.name = other := by simpa using List.find?_some hfind
        rw [e, hother, hfind] at htarget
        exact Option.some.inj htarget ▸ hentry
      · apply ih hp
        rw [find?_visit, if_neg e, htarget]

namespace Grammar

variable {g : Grammar} {name : Char}

/-! ## Unit chains -/

def UnitStep (g : Grammar) (name other : Char) : Prop :=
  [Symbol.nonterminal other] ∈ g.rules name

/-- A chain of zero or more unit rules. -/
abbrev UnitChain (g : Grammar) : Char → Char → Prop :=
  Relation.ReflTransGen g.UnitStep

theorem mem_unitReach_of_chain {root : Char} (chain : g.UnitChain root name) {rule : Rule}
    (mem : rule ∈ g.rules name) : ⟨name, rule⟩ ∈ g.unitReach root := by
  induction chain generalizing rule with
  | refl => exact agenda_subset_followUnits _ _ (List.mem_map_of_mem mem)
  | @tail source name _ step ih =>
    obtain ⟨entry, hfind, hrule⟩ := find?_of_mem_rules mem
    by_cases e : name = root
    · subst e
      exact agenda_subset_followUnits _ _ (List.mem_map_of_mem mem)
    · have htarget : (visit g.entries root).find? (·.name == name) = some entry := by
        rw [find?_visit, if_neg e]
        exact hfind
      apply productions_subset_followUnits (ih step) rfl htarget
      exact List.mem_map.2 ⟨rule, hrule, by rw [find?_name hfind]⟩

/-- From a root the walk meets the rules at the ends of its unit chains, and no others. -/
theorem mem_unitReach (nodup : g.names.Nodup) {root : Char} {p : Production} :
    p ∈ g.unitReach root ↔ g.UnitChain root p.left ∧ p.right ∈ g.rules p.left := by
  refine ⟨fun h ↦ ?_, fun ⟨chain, mem⟩ ↦ mem_unitReach_of_chain chain mem⟩
  refine followUnits_induction
    (P := fun p ↦ g.UnitChain root p.left ∧ p.right ∈ g.rules p.left) ?_ ?_ p h
  · intro p hp
    obtain ⟨rule, mem, rfl⟩ := List.mem_map.1 hp
    exact ⟨.refl, mem⟩
  · rintro p entry hentry ⟨chain, mem⟩ hunit q hq
    obtain ⟨rule, hrule, rfl⟩ := List.mem_map.1 hq
    rw [hunit] at mem
    refine ⟨chain.tail mem, ?_⟩
    rw [rules_of_mem nodup (List.mem_filter.1 hentry).1]
    exact hrule

theorem mem_names_of_unitChain {root : Char} (chain : g.UnitChain root name) {rule : Rule}
    (mem : rule ∈ g.rules name) : root ∈ g.names := by
  rcases chain.cases_head with rfl | ⟨_, step, -⟩
  · exact mem_names_of_mem_rules mem
  · exact mem_names_of_mem_rules step

/-- A cycle is a chain together with a unit rule from its end back to its beginning. -/
theorem mem_unitCycles (nodup : g.names.Nodup) {cycle : UnitCycle} :
    cycle ∈ g.unitCycles ↔ g.UnitChain cycle.nonterminal cycle.via ∧
      g.UnitStep cycle.via cycle.nonterminal := by
  have hmet (root : Char) : cycle ∈ g.unitCyclesAt root ↔ cycle.nonterminal = root ∧
      ⟨cycle.via, [.nonterminal root]⟩ ∈ g.unitReach root := by
    rw [unitCyclesAt, List.mem_filterMap]
    constructor
    · rintro ⟨p, hp, hcycle⟩
      obtain ⟨hunit, e⟩ := Option.ite_none_right_eq_some.1 hcycle
      cases e
      exact ⟨rfl, Rule.soleNonterminal?_eq_some.1 hunit ▸ hp⟩
    · rintro ⟨rfl, hp⟩
      exact ⟨_, hp, if_pos rfl⟩
  rw [unitCycles, mem_distinct, List.mem_flatMap]
  constructor
  · rintro ⟨root, _, hroot⟩
    obtain ⟨rfl, hp⟩ := (hmet root).1 hroot
    exact (mem_unitReach nodup).1 hp
  · rintro ⟨chain, step⟩
    refine ⟨cycle.nonterminal, mem_names_of_unitChain chain step, (hmet _).2 ⟨rfl, ?_⟩⟩
    exact mem_unitReach_of_chain chain step

/-- Where no unit rule leads to the nonterminal, no cycle begins with it. -/
theorem unitCyclesAt_eq_nil (nodup : g.names.Nodup) {root : Char} (h : ∀ name, ¬g.UnitStep name root) :
    g.unitCyclesAt root = [] := by
  rw [unitCyclesAt, List.filterMap_eq_nil_iff]
  intro p hp
  have mem := ((mem_unitReach nodup).1 hp).2
  refine if_neg fun hunit ↦ h p.left ?_
  rwa [Rule.soleNonterminal?_eq_some.1 hunit] at mem

/-- Where no cycle is reported there is none. -/
theorem not_transGen_unitStep_of_unitCycles_eq_nil (nodup : g.names.Nodup) (h : g.unitCycles = [])
    (name : Char) : ¬Relation.TransGen g.UnitStep name name := by
  intro cycle
  have ⟨via, chain, step⟩ := Relation.TransGen.tail'_iff.1 cycle
  have mem : ⟨name, via⟩ ∈ g.unitCycles := (mem_unitCycles nodup).2 ⟨chain, step⟩
  rw [h] at mem
  exact List.not_mem_nil mem

/-! ## The elimination as a whole -/

theorem wellFormed_withoutUnitRules (g : Grammar) : g.withoutUnitRules.WellFormed :=
  wellFormed_rebuild g _

/-- A nonterminal takes over the rules at the ends of its unit chains, except the unit rules among
them. -/
theorem mem_rules_withoutUnitRules (nodup : g.names.Nodup) {rule : Rule} :
    rule ∈ g.withoutUnitRules.rules name ↔
      Rule.soleNonterminal? rule = none ∧
        ∃ source, g.UnitChain name source ∧ rule ∈ g.rules source := by
  rw [withoutUnitRules, mem_rules_rebuild, List.mem_flatMap]
  constructor
  · rintro ⟨root, -, hroot⟩
    obtain ⟨p, hp, e⟩ := List.mem_map.1 hroot
    cases e
    obtain ⟨hp, hunit⟩ := List.mem_filter.1 hp
    exact ⟨Option.isNone_iff_eq_none.1 hunit, p.left, (mem_unitReach nodup).1 hp⟩
  · rintro ⟨hunit, source, chain, mem⟩
    have hname : name ∈ g.names := mem_names_of_unitChain chain mem
    refine ⟨name, hname, List.mem_map.2 ⟨⟨source, rule⟩, List.mem_filter.2 ⟨?_, ?_⟩, rfl⟩⟩
    · exact mem_unitReach_of_chain chain mem
    · simp [hunit]

@[simp]
theorem start_withoutUnitRules (g : Grammar) : g.withoutUnitRules.start = g.start :=
  start_rebuild g _

theorem names_withoutUnitRules_subset : g.withoutUnitRules.names ⊆ g.start :: g.names := by
  apply names_rebuild_subset List.mem_cons_self (List.subset_cons_self _ _)
  intro p hp
  obtain ⟨root, hroot, hp⟩ := List.mem_flatMap.1 hp
  obtain ⟨_, _, rfl⟩ := List.mem_map.1 hp
  exact List.mem_cons_of_mem _ hroot

/-- A chain of unit rules hands its words back to where it begins. -/
theorem language_le_of_unitChain {root : Char} (chain : g.UnitChain root name) :
    g.language name ≤ g.language root := by
  induction chain with
  | refl => exact le_rfl
  | tail _ step ih =>
    have hstep := g.isModel_language _ _ step
    rw [Rule.words_nonterminal] at hstep
    exact hstep.trans ih

/-- The elimination of unit rules keeps the language of every nonterminal. -/
theorem language_withoutUnitRules (nodup : g.names.Nodup) :
    g.withoutUnitRules.language = g.language := by
  apply le_antisymm
  · apply IsModel.language_le
    intro name rule mem
    obtain ⟨-, source, chain, mem⟩ := (mem_rules_withoutUnitRules nodup).1 mem
    exact (g.isModel_language source rule mem).trans (language_le_of_unitChain chain)
  · apply IsModel.language_le
    intro name rule mem
    cases hunit : Rule.soleNonterminal? rule with
    | none =>
      apply g.withoutUnitRules.isModel_language name rule
      exact (mem_rules_withoutUnitRules nodup).2 ⟨hunit, name, .refl, mem⟩
    | some other =>
      -- The other nonterminal has its words from rules that the first one has taken over.
      obtain rfl := Rule.soleNonterminal?_eq_some.1 hunit
      rw [Rule.words_nonterminal]
      intro word hword
      obtain ⟨rule, hrule, hword⟩ := mem_language_iff.1 hword
      obtain ⟨hunit, source, chain, hrule⟩ := (mem_rules_withoutUnitRules nodup).1 hrule
      refine g.withoutUnitRules.isModel_language name rule ?_ hword
      exact (mem_rules_withoutUnitRules nodup).2 ⟨hunit, source, chain.head mem, hrule⟩

/-! ## Main result -/

/-- Each nonterminal has the rules, apart from unit rules, of all nonterminals that its chains lead to, each
rule once, and it generates the same words as before. -/
theorem rules_and_generates_withoutUnitRules (nodup : g.names.Nodup) :
    (∀ name ∈ g.names, name ∈ g.withoutUnitRules.names ∧ (g.withoutUnitRules.rules name).Nodup ∧
      ∀ rule, rule ∈ g.withoutUnitRules.rules name ↔ (∀ target, rule ≠ [.nonterminal target]) ∧
        ∃ source, g.UnitChain name source ∧ rule ∈ g.rules source) ∧
    (∀ p ∈ g.withoutUnitRules.productions, ∀ target, p.right ≠ [.nonterminal target]) ∧
    ∀ name word, g.withoutUnitRules.Generates name word ↔ g.Generates name word := by
  have nodup' := (wellFormed_withoutUnitRules g).names_nodup
  refine ⟨fun name hname ↦ ⟨mem_names_rebuild.2 (Or.inr (Or.inl hname)), ?_, fun rule ↦ ?_⟩,
    fun p hp ↦ ?_, fun name word ↦ ?_⟩
  · rw [withoutUnitRules, rules_rebuild]
    exact nodup_distinct _
  · rw [mem_rules_withoutUnitRules nodup, Rule.soleNonterminal?_eq_none_iff]
  · have mem := (mem_productions nodup').1 hp
    exact Rule.soleNonterminal?_eq_none_iff.1 ((mem_rules_withoutUnitRules nodup).1 mem).1
  · have hlanguage := congrFun (language_withoutUnitRules nodup) name
    exact Set.ext_iff.1 hlanguage word

/-- A unit rule to its own left side, a cycle, a target that two chains share, and a unit rule to a
nonterminal without an entry. -/
def looped : Grammar :=
  ⟨[⟨'S', [[.nonterminal 'A'], [.nonterminal 'B'], [.nonterminal 'S']]⟩,
    ⟨'A', [[.nonterminal 'C'], [.nonterminal 'Z'], [.terminal 'a', .nonterminal 'S']]⟩,
    ⟨'B', [[.nonterminal 'C'], [.nonterminal 'S']]⟩,
    ⟨'C', [[.terminal 'c'], []]⟩], 'S'⟩

/-- Along the cycle `B` gets a rule of `A`, and it keeps no unit rule. -/
theorem rules_and_generates_withoutUnitRules_looped :
    looped.names.Nodup ∧ looped.UnitChain 'B' 'A' ∧
      [.terminal 'a', .nonterminal 'S'] ∈ looped.withoutUnitRules.rules 'B' ∧
      [.nonterminal 'C'] ∉ looped.withoutUnitRules.rules 'B' ∧
      ∀ word, looped.withoutUnitRules.Generates 'B' word ↔ looped.Generates 'B' word := by
  have nodup : looped.names.Nodup := by decide
  have hfirst : [.nonterminal 'S'] ∈ looped.rules 'B' := by decide
  have hsecond : [.nonterminal 'A'] ∈ looped.rules 'S' := by decide
  have chain : looped.UnitChain 'B' 'A' := .tail (.single hfirst) hsecond
  have ⟨hrules, _, hgenerates⟩ := rules_and_generates_withoutUnitRules nodup
  have ⟨_, _, hmem⟩ := hrules 'B' (by decide)
  refine ⟨nodup, chain, (hmem _).2 ⟨?_, 'A', chain, by decide⟩, ?_, hgenerates 'B'⟩
  · exact fun target e ↦ by cases e
  · exact fun mem ↦ ((hmem _).1 mem).1 'C' rfl

end Grammar

end GrammarForms
