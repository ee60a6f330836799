import GrammarForms.Proofs.Cleaning
import GrammarForms.Proofs.Pruning
import GrammarForms.Proofs.RuleSets
import Mathlib.Order.Bounds.Basic

/-!
# The Rules That Variants Leave

Which rules the elimination of empty rules leaves can be said without its computations.  A variant of a rule
is what remains, if anything does, when any of its occurrences of nullable nonterminals are deleted.  A set of
nonterminals absorbs one all of whose variants mention a member of the set, and the barren nonterminals are
the least set that absorbs no others.  The elimination leaves the start symbol and the nonterminals that are
not barren, each with exactly the variants that mention no barren one, and the policy decides about the empty
rule of a nullable start symbol.
-/

namespace GrammarForms

/-! ## Choices of occurrences -/

namespace Rule

variable {nullable : List Char} {rule erased : Rule}

/-- What is left of a rule when the occurrences with a negative mark are deleted. -/
def marked (marks : List Bool) (rule : Rule) : Rule :=
  ((rule.zip marks).filter (·.2)).map (·.1)

theorem marked_cons (mark : Bool) (marks : List Bool) (symbol : Symbol) (rest : Rule) :
    marked (mark :: marks) (symbol :: rest) =
      if mark then symbol :: marked marks rest else marked marks rest := by
  cases mark <;> rfl

/-- Every deleted occurrence is one of a nonterminal for which `erasable` holds. -/
def Spares (erasable : Char → Prop) (marks : List Bool) (rule : Rule) : Prop :=
  ∀ pair ∈ rule.zip marks, pair.2 = false → ∃ name, pair.1 = .nonterminal name ∧ erasable name

/-- The erasures of a rule are its remainders after all choices of nullable occurrences. -/
theorem mem_erasures_iff_marked : erased ∈ erasures nullable rule ↔
    ∃ marks : List Bool, marks.length = rule.length ∧ Spares (· ∈ nullable) marks rule ∧
      marked marks rule = erased := by
  induction rule generalizing erased with
  | nil =>
    constructor
    · intro h
      exact ⟨[], rfl, by simp [Spares], (List.mem_singleton.1 h).symm⟩
    · rintro ⟨marks, _, _, rfl⟩
      exact List.mem_singleton_self _
  | cons symbol rest ih =>
    rw [mem_erasures_cons]
    constructor
    · rintro (⟨shorter, hshorter, rfl⟩ | ⟨name, hname, rfl, hshorter⟩)
      · have ⟨marks, hlength, hspares, hmarked⟩ := ih.1 hshorter
        refine ⟨true :: marks, by simp [hlength], ?_, by simp [marked_cons, hmarked]⟩
        exact List.forall_mem_cons.2 ⟨(nomatch ·), hspares⟩
      · have ⟨marks, hlength, hspares, hmarked⟩ := ih.1 hshorter
        refine ⟨false :: marks, by simp [hlength], ?_, by simp [marked_cons, hmarked]⟩
        exact List.forall_mem_cons.2 ⟨fun _ ↦ ⟨name, rfl, hname⟩, hspares⟩
    · rintro ⟨marks, hlength, hspares, rfl⟩
      cases marks with
      | nil => cases hlength
      | cons mark marks =>
        have ⟨hfirst, hrest⟩ := List.forall_mem_cons.1 hspares
        have hshorter := ih.2 ⟨marks, Nat.succ.inj hlength, hrest, rfl⟩
        cases mark with
        | true => exact Or.inl ⟨_, hshorter, rfl⟩
        | false =>
          have ⟨name, hsymbol, hname⟩ := hfirst rfl
          exact Or.inr ⟨name, hname, hsymbol, hshorter⟩

end Rule

namespace Grammar

variable {g : Grammar} {policy : EmptyWordPolicy} {name : Char} {rule : Rule}

/-! ## Variants and barren nonterminals -/

/-- The variant is not empty, and it remains when some occurrences of nullable nonterminals are deleted. -/
def IsVariant (g : Grammar) (rule variant : Rule) : Prop :=
  variant ≠ [] ∧ ∃ marks : List Bool, marks.length = rule.length ∧
    Rule.Spares (g.Generates · []) marks rule ∧ Rule.marked marks rule = variant

/-- The variants that the elimination lists are those that the marks describe. -/
theorem isVariant_iff {variant : Rule} :
    g.IsVariant rule variant ↔ variant ∈ Rule.variants g.nullable rule := by
  have hnullable : (g.Generates · []) = (· ∈ g.nullable) :=
    funext fun name ↦ propext mem_nullable_iff.symm
  rw [IsVariant, hnullable, Rule.mem_variants, Rule.mem_erasures_iff_marked, and_comm]

/-- Each nonterminal in sight all of whose variants mention members is a member. -/
def Absorbs (g : Grammar) (members : Set Char) : Prop :=
  ∀ name, name = g.start ∨ name ∈ g.names →
    (∀ rule ∈ g.rules name, ∀ variant, g.IsVariant rule variant →
      ∃ other ∈ Rule.nonterminals variant, other ∈ members) → name ∈ members

/-- The barren nonterminals are found as the least set. -/
theorem isLeast_barren_withVariants (nodup : g.names.Nodup) :
    IsLeast {members | g.Absorbs members} {name | name ∈ g.withVariants.barren} := by
  constructor
  · intro name hsight hvariants
    refine mem_leastSet_iff.2 ⟨mem_names_withVariants.2 hsight, Or.inr (List.all_eq_true.2 ?_)⟩
    intro variant mem
    have ⟨rule, mem, hvariant⟩ := (mem_rules_withVariants nodup).1 mem
    exact Rule.mentionsAny_iff.2 (hvariants rule mem variant (isVariant_iff.2 hvariant))
  · intro members absorbs
    apply leastSet_induction
    intro found name hfound hname hall
    refine absorbs name (mem_names_withVariants.1 hname) fun rule mem variant hvariant ↦ ?_
    have mem := (mem_rules_withVariants nodup).2 ⟨rule, mem, isVariant_iff.1 hvariant⟩
    have ⟨other, hother, hmember⟩ := Rule.mentionsAny_iff.1 (List.all_eq_true.1 hall variant mem)
    exact ⟨other, hother, hfound other hmember⟩

/-! ## What the elimination leaves -/

/-- A nonterminal that is not barren has a rule that mentions no barren one. -/
theorem exists_mem_rules_withoutBarren (hname : name ∈ g.names) (hbarren : name ∉ g.barren) :
    ∃ rule, rule ∈ g.withoutBarren.rules name := by
  by_contra hnone
  refine hbarren (mem_leastSet_iff.2 ⟨hname, Or.inr (List.all_eq_true.2 fun rule mem ↦ ?_)⟩)
  by_contra hrule
  have hkept := Rule.mentionsAny_eq_false_iff.1 (Bool.eq_false_of_not_eq_true hrule)
  exact hnone ⟨rule, mem_rules_withoutBarren.2 ⟨mem, hkept⟩⟩

/-- The nonterminals that are not barren are left, and the start symbol in any case.  Their rules are the
variants that mention no barren nonterminal, and the start symbol may have the empty rule as well. -/
structure LeavesVariants (g : Grammar) (policy : EmptyWordPolicy) (barren : Set Char) (h : Grammar) :
    Prop where
  start_eq : h.start = g.start
  names_nodup : h.names.Nodup
  mem_names : ∀ name, name ∈ h.names ↔ name = g.start ∨ name ∈ g.names ∧ name ∉ barren
  rules_nodup : ∀ name ∈ h.names, (h.rules name).Nodup
  mem_rules : ∀ name ∈ h.names, ∀ rule, rule ∈ h.rules name ↔
    (∃ source ∈ g.rules name, g.IsVariant source rule ∧
      ∀ other ∈ Rule.nonterminals rule, other ∉ barren) ∨
    rule = [] ∧ name = g.start ∧ policy = .keepAtStart ∧ g.Generates g.start []
  exists_rule : ∀ name ∈ h.names, name ≠ g.start → ∃ rule, rule ∈ h.rules name
  mentioned : ∀ p ∈ h.productions, ∀ other ∈ Rule.nonterminals p.right,
    other = g.start ∨ other ∈ g.names → other ∈ h.names

theorem keepsEmptyWord_iff :
    g.KeepsEmptyWord policy ↔ policy = .keepAtStart ∧ g.Generates g.start [] :=
  and_congr_right fun _ ↦ isStartNullable_iff

/-- The elimination leaves the variants without barren nonterminals, and restores the empty rule
where it is kept. -/
theorem leavesVariants_withoutEmptyRules (nodup : g.names.Nodup) (policy : EmptyWordPolicy) :
    g.LeavesVariants policy {name | name ∈ g.withVariants.barren} (g.withoutEmptyRules policy) where
  start_eq := start_withoutEmptyRules g policy
  names_nodup := (wellFormed_withoutEmptyRules g policy).names_nodup
  mem_names := fun _ ↦ mem_names_withoutEmptyRules
  rules_nodup := fun name _ ↦ nodup_rules (wellFormed_withoutEmptyRules g policy) name
  mem_rules := by
    intro name _ rule
    rw [mem_rules_withoutEmptyRules, mem_rules_withoutBarren, mem_rules_withVariants nodup,
      keepsEmptyWord_iff]
    simp only [← isVariant_iff]
    constructor
    · rintro (⟨⟨source, mem, hvariant⟩, hkept⟩ | ⟨hname, hrule, hkeeps⟩)
      · exact Or.inl ⟨source, mem, hvariant, hkept⟩
      · exact Or.inr ⟨hrule, hname, hkeeps⟩
    · rintro (⟨source, mem, hvariant, hkept⟩ | ⟨hrule, hname, hkeeps⟩)
      · exact Or.inl ⟨⟨source, mem, hvariant⟩, hkept⟩
      · exact Or.inr ⟨hname, hrule, hkeeps⟩
  exists_rule := by
    intro name hname hstart
    have ⟨hsource, hbarren⟩ := (mem_names_withoutEmptyRules.1 hname).resolve_left hstart
    have ⟨rule, mem⟩ := exists_mem_rules_withoutBarren (mem_names_withVariants.2 (Or.inr hsource)) hbarren
    exact ⟨rule, mem_rules_withoutEmptyRules.2 (Or.inl mem)⟩
  mentioned := by
    intro p hp other hother hsight
    have mem := (mem_productions (wellFormed_withoutEmptyRules g policy).names_nodup).1 hp
    rcases mem_rules_withoutEmptyRules.1 mem with mem | ⟨_, hrule, _⟩
    · have hbarren := (mem_rules_withoutBarren.1 mem).2 other hother
      exact mem_names_withoutEmptyRules.2 (hsight.imp_right fun hname ↦ ⟨hname, hbarren⟩)
    · rw [hrule] at hother
      cases hother

/-! ## Main result -/

/-- There is a least set that absorbs nonterminals, and with either policy the variants that mention none of its
members are left.  To prune the barren nonterminals round by round comes to the same. -/
theorem exists_isLeast_and_leavesVariants (nodup : g.names.Nodup) :
    ∃ barren : Set Char, IsLeast {members | g.Absorbs members} barren ∧
      (∀ policy, g.LeavesVariants policy barren (g.withoutEmptyRules policy)) ∧
      g.withVariants.pruneRounds [] = g.withVariants.withoutBarren :=
  ⟨{name | name ∈ g.withVariants.barren}, isLeast_barren_withVariants nodup,
    leavesVariants_withoutEmptyRules nodup, pruneRounds_nil g.withVariants⟩

/-- One nonterminal has the empty rule alone, and one has no rule; together they make a third one barren.  One
turns on itself without being barren, and one mentions a nonterminal without an entry. -/
def wilting : Grammar :=
  ⟨[⟨'S', [[.nonterminal 'A', .terminal 'b', .nonterminal 'A'], [.nonterminal 'E'], [.nonterminal 'T']]⟩,
    ⟨'A', [[.terminal 'a'], []]⟩,
    ⟨'E', [[]]⟩,
    ⟨'R', []⟩,
    ⟨'T', [[.terminal 't', .nonterminal 'R'], [.nonterminal 'A', .nonterminal 'R'],
      [.nonterminal 'E', .nonterminal 'E']]⟩,
    ⟨'U', [[.nonterminal 'U', .nonterminal 'U'], []]⟩,
    ⟨'V', [[.terminal 'v', .nonterminal 'U', .nonterminal 'Z']]⟩], 'S'⟩

def wilted : Grammar :=
  ⟨[⟨'S', [[.nonterminal 'A', .terminal 'b', .nonterminal 'A'], [.nonterminal 'A', .terminal 'b'],
      [.terminal 'b', .nonterminal 'A'], [.terminal 'b'], []]⟩,
    ⟨'A', [[.terminal 'a']]⟩,
    ⟨'U', [[.nonterminal 'U', .nonterminal 'U'], [.nonterminal 'U']]⟩,
    ⟨'V', [[.terminal 'v', .nonterminal 'U', .nonterminal 'Z'], [.terminal 'v', .nonterminal 'Z']]⟩], 'S'⟩

theorem withoutEmptyRules_wilting : wilting.withoutEmptyRules .keepAtStart = wilted := by
  cbv

/-- Every variant of `T` mentions a barren nonterminal; `U` mentions only itself, which does not
make it barren. -/
theorem exists_isLeast_and_leavesVariants_wilting :
    wilting.names.Nodup ∧ ∃ barren : Set Char, IsLeast {members | wilting.Absorbs members} barren ∧
      'T' ∈ barren ∧ 'U' ∉ barren ∧ wilting.LeavesVariants .keepAtStart barren wilted := by
  have nodup : wilting.names.Nodup := by decide
  have ⟨barren, least, leaves, _⟩ := exists_isLeast_and_leavesVariants nodup
  have leaves := leaves .keepAtStart
  rw [withoutEmptyRules_wilting] at leaves
  refine ⟨nodup, barren, least, ?_, ?_, leaves⟩
  · by_contra hbarren
    have hname : 'T' ∈ wilted.names := (leaves.mem_names 'T').2 (Or.inr ⟨by decide, hbarren⟩)
    revert hname
    decide
  · have hname : 'U' ∈ wilted.names := by decide
    exact (((leaves.mem_names 'U').1 hname).resolve_left (by decide)).2

end Grammar

end GrammarForms
