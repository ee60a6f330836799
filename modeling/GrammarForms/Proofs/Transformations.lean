import GrammarForms.Proofs.Cleaning
import GrammarForms.Proofs.InOrder

/-!
# One Grammar in Place of Another

A transformation turns a grammar into one that can take its place: it is in order, has no new terminals and
accepts the same words, though it may have lost the empty one.  Transformations can therefore follow each
other in any order.  Here this is shown for the three eliminations, which need no fresh names.
-/

namespace GrammarForms.Grammar

variable {g h k : Grammar} {policy : EmptyWordPolicy} {name : Char} {symbol : Symbol}

/-- The second grammar can take the place of the first. -/
structure TurnsInto (g h : Grammar) : Prop where
  inOrder : h.InOrder
  uses_terminal : ∀ c, h.Uses (.terminal c) → g.Uses (.terminal c)
  accepts_iff : ∀ word ≠ [], h.Accepts word ↔ g.Accepts word
  accepts_nil : h.Accepts [] → g.Accepts []

theorem TurnsInto.refl (order : g.InOrder) : g.TurnsInto g where
  inOrder := order
  uses_terminal := fun _ huses ↦ huses
  accepts_iff := fun _ _ ↦ Iff.rfl
  accepts_nil := id

/-- Transformations can be put one after another. -/
theorem TurnsInto.trans (first : g.TurnsInto h) (second : h.TurnsInto k) : g.TurnsInto k where
  inOrder := second.inOrder
  uses_terminal := fun c huses ↦ first.uses_terminal c (second.uses_terminal c huses)
  accepts_iff := fun word hne ↦ (second.accepts_iff word hne).trans (first.accepts_iff word hne)
  accepts_nil := fun hnil ↦ first.accepts_nil (second.accepts_nil hnil)

/-- An extension that accepts the same words can take the place of the grammar. -/
theorem Extends.turnsInto (extension : g.Extends h) (order : g.InOrder) (wf : h.WellFormed)
    (fronted : h.Fronted) (accepts : ∀ word, h.Accepts word ↔ g.Accepts word) : g.TurnsInto h where
  inOrder := extension.inOrder order wf fronted
  uses_terminal := fun _ ↦ extension.uses_terminal
  accepts_iff := fun word _ ↦ accepts word
  accepts_nil := (accepts []).1

/-! ## Empty rules -/

theorem uses_withoutEmptyRules (nodup : g.names.Nodup) (huses : (g.withoutEmptyRules policy).Uses symbol) :
    g.Uses symbol := by
  have nodup' := (wellFormed_withoutEmptyRules g policy).names_nodup
  have ⟨name, rule, mem, hsymbol⟩ := (uses_iff nodup').1 huses
  have hne := List.ne_nil_of_mem hsymbol
  have ⟨source, hsource, hvariant⟩ := exists_variant_of_mem_rules_withoutEmptyRules nodup hne mem
  have hsublist := Rule.sublist_of_mem_erasures (Rule.mem_variants.1 hvariant).1
  exact uses_of_mem_rules nodup hsource (hsublist.subset hsymbol)

theorem fronted_withoutEmptyRules : (g.withoutEmptyRules policy).Fronted := by
  have hpruned : g.withVariants.withoutBarren.Fronted :=
    ((fronted_rebuild g _).keepRules _).keepEntries _
  unfold withoutEmptyRules
  split
  · exact hpruned.alter _ _
  · exact hpruned

/-- A nonterminal that a variant mentions without being barren has an entry left. -/
theorem closed_withoutEmptyRules (nodup : g.names.Nodup) (closed : g.Closed) :
    (g.withoutEmptyRules policy).Closed := by
  have nodup' := (wellFormed_withoutEmptyRules g policy).names_nodup
  apply closed_of_uses fronted_withoutEmptyRules.start_mem
  intro other huses
  have hname := closed.mem_names (uses_withoutEmptyRules nodup huses)
  obtain ⟨name, rule, mem, hother⟩ := (uses_iff nodup').1 huses
  rcases mem_rules_withoutEmptyRules.1 mem with mem | ⟨_, hnil, _⟩
  · have hbarren := (mem_rules_withoutBarren.1 mem).2 other (Rule.mem_nonterminals.2 hother)
    exact mem_names_withoutEmptyRules.2 (Or.inr ⟨hname, hbarren⟩)
  · rw [hnil] at hother
    cases hother

theorem turnsInto_withoutEmptyRules (order : g.InOrder) (policy : EmptyWordPolicy) :
    g.TurnsInto (g.withoutEmptyRules policy) where
  inOrder := {
    toWellFormed := wellFormed_withoutEmptyRules g policy
    toClosed := closed_withoutEmptyRules order.names_nodup order.toClosed
    fronted := fronted_withoutEmptyRules }
  uses_terminal := fun _ ↦ uses_withoutEmptyRules order.names_nodup
  accepts_iff := by
    intro word hne
    rw [accepts_withoutEmptyRules order.names_nodup]
    exact and_iff_left (Or.inl hne)
  accepts_nil := fun hnil ↦ ((accepts_withoutEmptyRules order.names_nodup).1 hnil).1

/-! ## Unit rules and useless symbols -/

theorem extends_withoutUnitRules (nodup : g.names.Nodup) : g.Extends g.withoutUnitRules := by
  apply extends_of_rules (wellFormed_withoutUnitRules g).names_nodup
  · exact fun name hname ↦ mem_names_rebuild.2 (Or.inr (Or.inl hname))
  · intro left rule mem symbol hsymbol
    have ⟨_, source, _, hsource⟩ := (mem_rules_withoutUnitRules nodup).1 mem
    exact Or.inl (uses_of_mem_rules nodup hsource hsymbol)

theorem turnsInto_withoutUnitRules (order : g.InOrder) : g.TurnsInto g.withoutUnitRules := by
  apply (extends_withoutUnitRules order.names_nodup).turnsInto order (wellFormed_withoutUnitRules g)
  · exact fronted_rebuild g _
  · intro word
    rw [accepts_iff, accepts_iff, start_withoutUnitRules, language_withoutUnitRules order.names_nodup]

theorem turnsInto_withoutUselessSymbols (order : g.InOrder) :
    g.TurnsInto g.withoutUselessSymbols where
  inOrder := {
    toWellFormed := wellFormed_withoutUselessSymbols order.toWellFormed
    toClosed := closed_withoutUselessSymbols order.names_nodup order.start_mem
    fronted := ((order.fronted.keepRules _).keepEntries _).keepEntries _ }
  uses_terminal := by
    intro c huses
    have nodup' := nodup_withoutUselessSymbols order.names_nodup
    have ⟨name, rule, mem, hsymbol⟩ := (uses_iff nodup').1 huses
    exact uses_of_mem_rules order.names_nodup (mem_rules_withoutUselessSymbols.1 mem).1 hsymbol
  accepts_iff := fun word _ ↦ accepts_withoutUselessSymbols order.names_nodup
  accepts_nil := (accepts_withoutUselessSymbols order.names_nodup).1

theorem turnsInto_cleaned (order : g.InOrder) (policy : EmptyWordPolicy) :
    g.TurnsInto (g.cleaned policy) := by
  have hempty := turnsInto_withoutEmptyRules order policy
  have hunit := turnsInto_withoutUnitRules hempty.inOrder
  exact (hempty.trans hunit).trans (turnsInto_withoutUselessSymbols hunit.inOrder)

end GrammarForms.Grammar
