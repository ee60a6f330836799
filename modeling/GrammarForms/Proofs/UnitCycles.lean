import GrammarForms.Proofs.Cleaning

/-!
# Unit Cycles in Terms of Derivations

Unit cycles are met when the empty rules are already gone, but they can be told from the derivations of
the source.  A nonterminal shrinks to another one if some rule of it has the other one between symbols
that derive the empty word.  A derivation from one nonterminal to a form of one nonterminal goes along
such rules, and a variant of such a rule is a unit rule.

Barren nonterminals are no obstacle.  Each of their rules mentions a nonterminal that was barren before
them, so none of them lies on a cycle.
-/

namespace GrammarForms

/-! ## Erasing all symbols but one -/

namespace Rule

variable {nullable : List Char} {rule : Rule}

/-- Everything can be erased from a rule of nullable nonterminals. -/
theorem nil_mem_erasures_iff : [] ∈ erasures nullable rule ↔
    ∀ symbol ∈ rule, ∃ name ∈ nullable, symbol = .nonterminal name := by
  induction rule with
  | nil => simp [erasures]
  | cons first rest ih =>
    rw [mem_erasures_cons, ih, List.forall_mem_cons]
    simp only [List.cons_ne_nil, and_false, exists_false, false_or, ← and_assoc, exists_and_right]

/-- A single symbol is left when all others can be erased. -/
theorem singleton_mem_erasures_iff {symbol : Symbol} : [symbol] ∈ erasures nullable rule ↔
    ∃ before after, before ++ symbol :: after = rule ∧
      ∀ other ∈ before ++ after, ∃ name ∈ nullable, other = .nonterminal name := by
  induction rule with
  | nil => simp [erasures]
  | cons first rest ih =>
    rw [mem_erasures_cons, ih]
    constructor
    · rintro (⟨shorter, hshorter, e⟩ | ⟨name, hname, rfl, before, after, rfl, hothers⟩)
      · obtain ⟨rfl, rfl⟩ := List.cons_eq_cons.1 e
        exact ⟨[], rest, rfl, nil_mem_erasures_iff.1 hshorter⟩
      · refine ⟨.nonterminal name :: before, after, rfl, ?_⟩
        exact List.forall_mem_cons.2 ⟨⟨name, hname, rfl⟩, hothers⟩
    · rintro ⟨before, after, e, hothers⟩
      cases before with
      | nil =>
        obtain ⟨rfl, rfl⟩ := List.cons_eq_cons.1 e
        exact Or.inl ⟨[], nil_mem_erasures_iff.2 hothers, rfl⟩
      | cons head before =>
        obtain ⟨rfl, rfl⟩ := List.cons_eq_cons.1 e
        obtain ⟨⟨name, hname, hhead⟩, hrest⟩ := List.forall_mem_cons.1 hothers
        exact Or.inr ⟨name, hname, hhead, before, after, rfl, hrest⟩

end Rule

namespace Grammar

open Relation (ReflTransGen TransGen)

variable {g : Grammar} {policy : EmptyWordPolicy} {name other target : Char} {form next : Rule}

/-! ## Rules that shrink -/

/-- Some rule of the first nonterminal has the second one between symbols that derive the empty word. -/
def ShrinksTo (g : Grammar) (name other : Char) : Prop :=
  ∃ before after, before ++ .nonterminal other :: after ∈ g.rules name ∧
    ∀ symbol ∈ before ++ after, g.Derives [symbol] []

theorem derives_nil_iff_mem_words : g.Derives form [] ↔ [] ∈ Rule.words g.language form :=
  (@mem_words_language g form []).symm

theorem derives_nil_iff : g.Derives form [] ↔ ∀ symbol ∈ form, g.Derives [symbol] [] := by
  simp only [derives_nil_iff_mem_words, Rule.nil_mem_words, List.forall_mem_singleton]

/-- A form loses all its symbols exactly if each part of it does. -/
theorem derives_nil_append_iff {first second : Rule} :
    g.Derives (first ++ second) [] ↔ g.Derives first [] ∧ g.Derives second [] := by
  rw [derives_nil_iff, List.forall_mem_append, ← derives_nil_iff, ← derives_nil_iff]

theorem derives_singleton_nil_iff {symbol : Symbol} :
    g.Derives [symbol] [] ↔ ∃ name ∈ g.nullable, symbol = .nonterminal name := by
  simp only [derives_nil_iff_mem_words, Rule.nil_mem_words, List.forall_mem_singleton,
    mem_nullable_iff, and_comm]

/-- Without the empty rules the rules that shrink are unit rules. -/
theorem unitStep_withVariants_iff (nodup : g.names.Nodup) :
    g.withVariants.UnitStep name other ↔ g.ShrinksTo name other := by
  simp only [UnitStep, mem_rules_withVariants nodup, Rule.mem_variants, ne_eq, List.cons_ne_nil,
    not_false_eq_true, and_true, Rule.singleton_mem_erasures_iff, ← derives_singleton_nil_iff]
  constructor
  · rintro ⟨_, mem, before, after, rfl, hothers⟩
    exact ⟨before, after, mem, hothers⟩
  · rintro ⟨before, after, mem, hothers⟩
    exact ⟨_, mem, before, after, rfl, hothers⟩

/-! ## Derivations of one nonterminal -/

/-- Some nonterminal of the form leads to the target, and the symbols around it derive the empty word. -/
def LeadsFrom (g : Grammar) (target : Char) (form : Rule) : Prop :=
  ∃ before name after, form = before ++ .nonterminal name :: after ∧ g.Derives (before ++ after) [] ∧
    ReflTransGen g.ShrinksTo name target

/-- From a single nonterminal, the target is reached by shrinking. -/
theorem leadsFrom_singleton_iff :
    g.LeadsFrom target [.nonterminal name] ↔ ReflTransGen g.ShrinksTo name target := by
  constructor
  · rintro ⟨before, other, after, e, -, chain⟩
    obtain ⟨rfl, hname⟩ | ⟨_, hnil⟩ := List.append_eq_singleton_iff.1 e.symm
    · obtain ⟨e, -⟩ := List.cons_eq_cons.1 hname
      exact Symbol.nonterminal.inj e ▸ chain
    · cases hnil
  · exact fun chain ↦ ⟨[], name, [], rfl, .refl _, chain⟩

/-- A member of two lists in a row is a member of one of them. -/
theorem append_eq_append_cons {α : Type} {first second front back : List α} {x : α}
    (h : first ++ second = front ++ x :: back) :
    (∃ rest, first = front ++ x :: rest ∧ back = rest ++ second) ∨
      ∃ rest, second = rest ++ x :: back ∧ front = first ++ rest := by
  rcases List.append_eq_append_iff.1 h with ⟨rest, hfront, hsecond⟩ | ⟨rest, hfirst, hback⟩
  · exact Or.inr ⟨rest, hsecond, hfront⟩
  · rcases List.cons_eq_append_iff.1 hback with ⟨rfl, hsecond⟩ | ⟨rest, rfl, hback⟩
    · exact Or.inr ⟨[], hsecond, by simpa using hfirst.symm⟩
    · exact Or.inl ⟨rest, hfirst, (List.cons_eq_cons.1 hback).2⟩

/-- Where the rule of a step derives the empty word, its nonterminal does so too, and where the rule holds
the nonterminal that leads to the target, the rule shrinks to it. -/
theorem LeadsFrom.of_step (step : g.Step form next) (h : g.LeadsFrom target next) :
    g.LeadsFrom target form := by
  obtain ⟨before, after, mem⟩ := step
  rename_i name rule
  have hname (hrule : g.Derives rule []) : g.Derives [.nonterminal name] [] :=
    ((Derives.refl _).tail (step_nonterminal_iff.2 mem)).trans hrule
  obtain ⟨front, other, back, e, hothers, chain⟩ := h
  obtain ⟨hfront, hback⟩ := derives_nil_append_iff.1 hothers
  rcases append_eq_append_cons e with ⟨rest, hleft, rfl⟩ | ⟨rest, rfl, rfl⟩
  · obtain ⟨hrest, hafter⟩ := derives_nil_append_iff.1 hback
    rcases append_eq_append_cons hleft with ⟨last, rfl, rfl⟩ | ⟨first, rfl, rfl⟩
    · obtain ⟨hlast, hrule⟩ := derives_nil_append_iff.1 hrest
      refine ⟨front, other, last ++ .nonterminal name :: after, by simp, ?_, chain⟩
      refine derives_nil_append_iff.2 ⟨hfront, derives_nil_append_iff.2 ⟨hlast, ?_⟩⟩
      exact derives_nil_append_iff.2 ⟨hname hrule, hafter⟩
    · obtain ⟨hbefore, hfirst⟩ := derives_nil_append_iff.1 hfront
      refine ⟨before, name, after, rfl, derives_nil_append_iff.2 ⟨hbefore, hafter⟩, chain.head ?_⟩
      exact ⟨first, rest, mem, derives_nil_iff.1 (derives_nil_append_iff.2 ⟨hfirst, hrest⟩)⟩
  · obtain ⟨hleft, hrest⟩ := derives_nil_append_iff.1 hfront
    obtain ⟨hbefore, hrule⟩ := derives_nil_append_iff.1 hleft
    refine ⟨before ++ .nonterminal name :: rest, other, back, by simp, ?_, chain⟩
    refine derives_nil_append_iff.2 ⟨derives_nil_append_iff.2 ⟨hbefore, ?_⟩, hback⟩
    exact derives_nil_append_iff.2 ⟨hname hrule, hrest⟩

/-- Along a derivation, what a form leads to was led to before. -/
theorem LeadsFrom.of_derives (run : g.Derives form next) (h : g.LeadsFrom target next) :
    g.LeadsFrom target form := by
  induction run with
  | refl => exact h
  | tail _ step ih => exact ih (h.of_step step)

/-- The rule is the first step of a derivation. -/
theorem ShrinksTo.exists_step (h : g.ShrinksTo name other) :
    ∃ next, g.Step [.nonterminal name] next ∧ g.Derives next [.nonterminal other] := by
  obtain ⟨before, after, mem, hothers⟩ := h
  have ⟨hbefore, hafter⟩ := derives_nil_append_iff.1 (derives_nil_iff.2 hothers)
  refine ⟨before ++ .nonterminal other :: after, step_nonterminal_iff.2 mem, ?_⟩
  have front : g.Derives (before ++ .nonterminal other :: after) (.nonterminal other :: after) := by
    simpa using hbefore.context [] (.nonterminal other :: after)
  have back : g.Derives (.nonterminal other :: after) [.nonterminal other] := by
    simpa using hafter.context [.nonterminal other] []
  exact front.trans back

/-- One nonterminal derives another exactly along a chain that shrinks. -/
theorem derives_nonterminal_iff :
    g.Derives [.nonterminal name] [.nonterminal target] ↔ ReflTransGen g.ShrinksTo name target := by
  constructor
  · intro run
    exact leadsFrom_singleton_iff.1 (.of_derives run (leadsFrom_singleton_iff.2 .refl))
  · intro chain
    induction chain with
    | refl => exact .refl _
    | tail _ shrinks ih =>
      obtain ⟨next, step, run⟩ := shrinks.exists_step
      exact ih.trans (((Derives.refl _).tail step).trans run)

/-- A nonterminal derives itself if it leads to itself. -/
theorem derives_self_iff :
    (∃ next, g.Step [.nonterminal name] next ∧ g.Derives next [.nonterminal name]) ↔
      TransGen g.ShrinksTo name name := by
  rw [TransGen.head'_iff]
  constructor
  · rintro ⟨next, step, run⟩
    obtain ⟨before, other, after, rfl, hothers, chain⟩ :=
      LeadsFrom.of_derives run (leadsFrom_singleton_iff.2 .refl)
    exact ⟨other, ⟨before, after, step_nonterminal_iff.1 step, derives_nil_iff.1 hothers⟩, chain⟩
  · rintro ⟨other, shrinks, chain⟩
    obtain ⟨next, step, run⟩ := shrinks.exists_step
    exact ⟨next, step, run.trans (derives_nonterminal_iff.2 chain)⟩

/-! ## Cycles without barren nonterminals -/

/-- A barren nonterminal is on no cycle. -/
theorem not_transGen_unitStep_of_mem_barren : ∀ name ∈ g.barren, ¬TransGen g.UnitStep name name := by
  apply leastSet_induction
  intro members name hmembers _ hall cycle
  obtain ⟨other, step, chain⟩ := TransGen.head'_iff.1 cycle
  have hmentions := List.all_eq_true.1 hall _ step
  have hother : other ∈ members := by
    simpa [Rule.mentionsAny, Rule.nonterminals, Symbol.nonterminal?] using hmentions
  exact hmembers other hother (.tail' chain step)

theorem unitStep_withoutBarren_iff :
    g.withoutBarren.UnitStep name other ↔ g.UnitStep name other ∧ other ∉ g.barren := by
  rw [UnitStep, rules_withoutBarren, List.mem_filter, UnitStep]
  simp [Rule.mentionsAny, Rule.nonterminals, Symbol.nonterminal?]

/-- The elimination of barren nonterminals keeps every cycle. -/
theorem unitCycle_withoutBarren_iff {via : Char} :
    g.withoutBarren.UnitChain name via ∧ g.withoutBarren.UnitStep via name ↔
      g.UnitChain name via ∧ g.UnitStep via name := by
  have hself {other : Char} (cycle : TransGen g.UnitStep other other) : other ∉ g.barren :=
    fun h ↦ not_transGen_unitStep_of_mem_barren other h cycle
  constructor
  · rintro ⟨chain, step⟩
    have hle : g.withoutBarren.UnitStep ≤ g.UnitStep := fun _ _ step ↦
      (unitStep_withoutBarren_iff.1 step).1
    exact ⟨ReflTransGen.mono hle name via chain, hle via name step⟩
  · rintro ⟨chain, step⟩
    have hkept : ∀ other, g.UnitChain name other → g.UnitChain other name →
        g.withoutBarren.UnitChain name other := by
      intro other chain
      induction chain with
      | refl => exact fun _ ↦ .refl
      | @tail middle other chain step ih =>
        intro back
        have hother : other ∉ g.barren := hself (TransGen.tail' (back.trans chain) step)
        exact (ih (back.head step)).tail (unitStep_withoutBarren_iff.2 ⟨step, hother⟩)
    have hname : name ∉ g.barren := hself (TransGen.tail' chain step)
    exact ⟨hkept via chain (.single step), unitStep_withoutBarren_iff.2 ⟨step, hname⟩⟩

/-- The elimination of empty rules leaves the unit rules of the variants that stay. -/
theorem unitStep_withoutEmptyRules_iff :
    (g.withoutEmptyRules policy).UnitStep name other ↔
      g.withVariants.withoutBarren.UnitStep name other := by
  rw [UnitStep, mem_rules_withoutEmptyRules, UnitStep]
  simp

/-- The cycles that are met are those along rules that shrink. -/
theorem mem_cyclesMet_iff (nodup : g.names.Nodup) {cycle : UnitCycle} :
    cycle ∈ g.cyclesMet policy ↔ ReflTransGen g.ShrinksTo cycle.nonterminal cycle.via ∧
      g.ShrinksTo cycle.via cycle.nonterminal := by
  have hempty : (g.withoutEmptyRules policy).UnitStep = g.withVariants.withoutBarren.UnitStep := by
    funext name other
    exact propext unitStep_withoutEmptyRules_iff
  have hvariants : g.withVariants.UnitStep = g.ShrinksTo := by
    funext name other
    exact propext (unitStep_withVariants_iff nodup)
  calc
    _ ↔ (g.withoutEmptyRules policy).UnitChain cycle.nonterminal cycle.via ∧
        (g.withoutEmptyRules policy).UnitStep cycle.via cycle.nonterminal :=
      mem_unitCycles (wellFormed_withoutEmptyRules g policy).names_nodup
    _ ↔ g.withVariants.withoutBarren.UnitChain cycle.nonterminal cycle.via ∧
        g.withVariants.withoutBarren.UnitStep cycle.via cycle.nonterminal := by
      rw [UnitChain, hempty]
    _ ↔ g.withVariants.UnitChain cycle.nonterminal cycle.via ∧
        g.withVariants.UnitStep cycle.via cycle.nonterminal := unitCycle_withoutBarren_iff
    _ ↔ ReflTransGen g.ShrinksTo cycle.nonterminal cycle.via ∧
        g.ShrinksTo cycle.via cycle.nonterminal := by
      rw [UnitChain, hvariants]

end Grammar

end GrammarForms
