import GrammarForms.Proofs.Variants

/-!
# Eliminating Empty Rules Twice

A kept empty rule makes the start symbol nullable again, and with it every nonterminal from which a chain of
unit rules leads there.  So a second elimination deletes occurrences once more.  What it deletes was nullable
before, so each new variant is a variant of an old rule and is there already.  Nor does it find a nonterminal
barren that was not, and the rules that are left mention none of these.  The rule sets stay as they are; only
the order of the rules may change.
-/

namespace GrammarForms

namespace Rule

variable {nullable others : List Char} {rule middle erased : Rule}

/-- Erasing nothing is one of the choices. -/
theorem self_mem_erasures (nullable : List Char) (rule : Rule) : rule ∈ erasures nullable rule := by
  induction rule with
  | nil => exact List.mem_singleton_self _
  | cons symbol rest ih => exact mem_erasures_cons.2 (Or.inl ⟨rest, ih, rfl⟩)

/-- Erasing fewer nonterminals from an erasure gives an erasure. -/
theorem mem_erasures_trans (subset : others ⊆ nullable) (first : middle ∈ erasures nullable rule)
    (second : erased ∈ erasures others middle) : erased ∈ erasures nullable rule := by
  induction rule generalizing middle erased with
  | nil =>
    rw [List.mem_singleton.1 first] at second
    exact second
  | cons symbol rest ih =>
    rcases mem_erasures_cons.1 first with ⟨shorter, hshorter, rfl⟩ | ⟨name, hname, rfl, hshorter⟩
    · rcases mem_erasures_cons.1 second with ⟨last, hlast, rfl⟩ | ⟨name, hname, rfl, hlast⟩
      · exact mem_erasures_cons.2 (Or.inl ⟨last, ih hshorter hlast, rfl⟩)
      · exact mem_erasures_cons.2 (Or.inr ⟨name, subset hname, rfl, ih hshorter hlast⟩)
    · exact mem_erasures_cons.2 (Or.inr ⟨name, hname, rfl, ih hshorter second⟩)

theorem self_mem_variants (hne : rule ≠ []) : rule ∈ variants nullable rule :=
  mem_variants.2 ⟨self_mem_erasures nullable rule, hne⟩

/-- A variant of a variant is a variant. -/
theorem mem_variants_trans (subset : others ⊆ nullable) (first : middle ∈ variants nullable rule)
    (second : erased ∈ variants others middle) : erased ∈ variants nullable rule := by
  have ⟨hfirst, _⟩ := mem_variants.1 first
  have ⟨hsecond, hne⟩ := mem_variants.1 second
  exact mem_variants.2 ⟨mem_erasures_trans subset hfirst hsecond, hne⟩

theorem notMem_variants_nil : erased ∉ variants nullable [] := by
  simp [variants, erasures]

end Rule

namespace Grammar

variable {g : Grammar} {policy : EmptyWordPolicy} {name : Char} {rule : Rule}

/-! ## The second round of variants -/

/-- The elimination makes no nonterminal nullable. -/
theorem nullable_withoutEmptyRules_subset (nodup : g.names.Nodup) :
    (g.withoutEmptyRules policy).nullable ⊆ g.nullable := by
  intro name hname
  apply mem_nullable_iff.2
  exact language_withoutEmptyRules_le nodup name (mem_nullable_iff.1 hname)

/-- The rules that are not empty are closed under deleting what is nullable still. -/
theorem mem_rules_withVariants_withoutEmptyRules (nodup : g.names.Nodup) :
    rule ∈ (g.withoutEmptyRules policy).withVariants.rules name ↔
      rule ∈ g.withVariants.withoutBarren.rules name := by
  have nodup' := (wellFormed_withoutEmptyRules g policy).names_nodup
  rw [mem_rules_withVariants nodup']
  constructor
  · rintro ⟨source, mem, hvariant⟩
    rcases mem_rules_withoutEmptyRules.1 mem with mem | ⟨_, rfl, _⟩
    · obtain ⟨mem, hbarren⟩ := mem_rules_withoutBarren.1 mem
      have ⟨origin, horigin, hsource⟩ := (mem_rules_withVariants nodup).1 mem
      have hrule := Rule.mem_variants_trans (nullable_withoutEmptyRules_subset nodup) hsource hvariant
      refine mem_rules_withoutBarren.2 ⟨(mem_rules_withVariants nodup).2 ⟨origin, horigin, hrule⟩, ?_⟩
      exact fun other hother ↦ hbarren other (Rule.nonterminals_subset_of_mem_variants hvariant hother)
    · exact absurd hvariant Rule.notMem_variants_nil
  · intro mem
    have hne : rule ≠ [] := fun e ↦
      nil_notMem_rules_withVariants nodup (e ▸ rules_withoutBarren_subset mem)
    exact ⟨rule, mem_rules_withoutEmptyRules.2 (Or.inl mem), Rule.self_mem_variants hne⟩

/-- A nonterminal with a rule that mentions no barren one stays in the same position. -/
theorem barren_withoutEmptyRules_subset (nodup : g.names.Nodup) :
    (g.withoutEmptyRules policy).withVariants.barren ⊆ g.withVariants.barren := by
  intro name
  revert name
  apply leastSet_induction
  intro members name hmembers hname hall
  by_contra hbarren
  have hsource : name ∈ g.withVariants.names := by
    apply mem_names_withVariants.2
    rcases mem_names_withVariants.1 hname with e | hname
    · exact Or.inl (e.trans (start_withoutEmptyRules g policy))
    · exact (mem_names_withoutEmptyRules.1 hname).imp_right And.left
  have ⟨rule, mem⟩ := exists_mem_rules_withoutBarren hsource hbarren
  have hagain : rule ∈ (g.withoutEmptyRules policy).withVariants.rules name :=
    (mem_rules_withVariants_withoutEmptyRules nodup).2 mem
  have ⟨other, hother, hmember⟩ := Rule.mentionsAny_iff.1 (List.all_eq_true.1 hall rule hagain)
  exact (mem_rules_withoutBarren.1 mem).2 other hother (hmembers other hmember)

/-- A second elimination decides about the empty word as the first did. -/
theorem keepsEmptyWord_withoutEmptyRules (nodup : g.names.Nodup) :
    (g.withoutEmptyRules policy).KeepsEmptyWord policy ↔ g.KeepsEmptyWord policy := by
  rw [KeepsEmptyWord, isStartNullable_iff, accepts_iff, start_withoutEmptyRules,
    nil_mem_language_withoutEmptyRules nodup]
  exact and_iff_right_of_imp And.left

/-- A second elimination may list the rules in another order but changes none. -/
theorem sameRules_withoutEmptyRules_again (nodup : g.names.Nodup) :
    ((g.withoutEmptyRules policy).withoutEmptyRules policy).SameRules (g.withoutEmptyRules policy) where
  start_eq := start_withoutEmptyRules _ policy
  mem_names := by
    intro name
    rw [mem_names_withoutEmptyRules, start_withoutEmptyRules]
    constructor
    · rintro (e | ⟨hname, _⟩)
      · exact mem_names_withoutEmptyRules.2 (Or.inl e)
      · exact hname
    · intro hname
      refine (mem_names_withoutEmptyRules.1 hname).imp_right fun ⟨_, hbarren⟩ ↦ ⟨hname, ?_⟩
      exact fun h ↦ hbarren (barren_withoutEmptyRules_subset nodup h)
  mem_rules := by
    intro name rule
    rw [mem_rules_withoutEmptyRules, mem_rules_withoutBarren,
      mem_rules_withVariants_withoutEmptyRules nodup, start_withoutEmptyRules,
      keepsEmptyWord_withoutEmptyRules nodup, mem_rules_withoutEmptyRules]
    refine or_congr_left (and_iff_left_of_imp fun mem other hother hbarren ↦ ?_)
    have hkept := (mem_rules_withoutBarren.1 mem).2 other hother
    exact hkept (barren_withoutEmptyRules_subset nodup hbarren)

/-! ## Main result -/

/-- A second elimination with the same policy changes no rule set. -/
theorem canonicalRules_withoutEmptyRules_again (nodup : g.names.Nodup) (policy : EmptyWordPolicy) :
    ((g.withoutEmptyRules policy).withoutEmptyRules policy).canonicalRules =
        (g.withoutEmptyRules policy).canonicalRules ∧
      ((g.withoutEmptyRules policy).withoutEmptyRules policy).start =
        (g.withoutEmptyRules policy).start := by
  have same : ((g.withoutEmptyRules policy).withoutEmptyRules policy).SameRules
      (g.withoutEmptyRules policy) := sameRules_withoutEmptyRules_again nodup
  have wf := wellFormed_withoutEmptyRules g policy
  have wf' := wellFormed_withoutEmptyRules (g.withoutEmptyRules policy) policy
  exact ⟨same.canonicalRules_eq wf' wf, same.start_eq⟩

/-- The kept empty rule lets the start symbol be deleted again, one nonterminal has the empty rule alone, and a
chain of unit rules leads back to the start symbol. -/
def relapsing : Grammar :=
  ⟨[⟨'S', [[.nonterminal 'S', .nonterminal 'A'], [.nonterminal 'B', .nonterminal 'E'], []]⟩,
    ⟨'A', [[.terminal 'a'], []]⟩,
    ⟨'B', [[.nonterminal 'S'], [.terminal 'b', .nonterminal 'B']]⟩,
    ⟨'E', [[]]⟩], 'S'⟩

def relapsed : Grammar :=
  ⟨[⟨'S', [[.nonterminal 'S', .nonterminal 'A'], [.nonterminal 'S'], [.nonterminal 'A'],
      [.nonterminal 'B'], []]⟩,
    ⟨'A', [[.terminal 'a']]⟩,
    ⟨'B', [[.nonterminal 'S'], [.terminal 'b', .nonterminal 'B'], [.terminal 'b']]⟩], 'S'⟩

/-- The second elimination meets the rules in another order. -/
def relapsedAgain : Grammar :=
  ⟨[⟨'S', [[.nonterminal 'S', .nonterminal 'A'], [.nonterminal 'A'], [.nonterminal 'S'],
      [.nonterminal 'B'], []]⟩,
    ⟨'A', [[.terminal 'a']]⟩,
    ⟨'B', [[.nonterminal 'S'], [.terminal 'b', .nonterminal 'B'], [.terminal 'b']]⟩], 'S'⟩

theorem withoutEmptyRules_relapsing : relapsing.withoutEmptyRules .keepAtStart = relapsed := by
  cbv

theorem withoutEmptyRules_relapsed : relapsed.withoutEmptyRules .keepAtStart = relapsedAgain := by
  cbv

/-- The second elimination moves a rule to another place, and the set of rules is the same. -/
theorem canonicalRules_withoutEmptyRules_again_relapsing :
    relapsing.names.Nodup ∧ relapsedAgain ≠ relapsed ∧
      relapsedAgain.canonicalRules = relapsed.canonicalRules ∧ relapsedAgain.start = relapsed.start := by
  have nodup : relapsing.names.Nodup := by decide
  have again := canonicalRules_withoutEmptyRules_again nodup .keepAtStart
  rw [withoutEmptyRules_relapsing, withoutEmptyRules_relapsed] at again
  exact ⟨nodup, by decide, again⟩

end Grammar

end GrammarForms
