import GrammarForms.Proofs.TidyGrammars

/-!
# Normal Forms as Fixed Points

A result of a normalization is tidy and has no useless symbols, so the eliminations keep its rules.
They also have the form that the later steps give them.  Another normalization therefore changes
nothing but the order of the rules, and it asks for no name.
-/

namespace GrammarForms

/-! ## Rules in normal form -/

namespace Rule

variable {rule : Rule}

/-- One terminal, two nonterminals, or nothing. -/
def IsChomsky (rule : Rule) : Prop :=
  rule = [] ∨ (∃ c, rule = [.terminal c]) ∨ IsPair rule

namespace IsChomsky

variable (form : rule.IsChomsky)

include form

theorem soleNonterminal?_eq_none : soleNonterminal? rule = none := by
  rcases form with rfl | ⟨c, rfl⟩ | ⟨one, other, rfl⟩ <;> rfl

theorem misplacedTerminals_eq_nil : misplacedTerminals rule = [] := by
  rcases form with rfl | ⟨c, rfl⟩ | ⟨one, other, rfl⟩ <;> rfl

theorem excess_eq_zero : excess rule = 0 := by
  rcases form with rfl | ⟨c, rfl⟩ | ⟨one, other, rfl⟩ <;> rfl

end IsChomsky

theorem replaceTerminals_nil (rule : Rule) : replaceTerminals [] rule = rule := by
  by_cases hlength : rule.length < 2
  · exact replaceTerminals_of_length_lt hlength
  · have hself : ∀ symbol ∈ rule, replaceTerminal [] symbol = id symbol := by
      intro symbol _
      cases symbol <;> rfl
    rw [replaceTerminals_eq_map hlength, List.map_congr_left hself, List.map_id]

end Rule

namespace Grammar

variable {g : Grammar} {policy : EmptyWordPolicy} {supply : NameSupply} {name : Char} {rule : Rule}

/-! ## Chomsky normal form -/

/-- Where no terminal is misplaced, the walk draws no name. -/
theorem isolateTerminals_of_misplacedTerminals_eq_nil (h : g.misplacedTerminals = []) :
    g.isolateTerminals.outcome supply = (.ok (g.isolatedBy []), supply) := by
  rw [isolateTerminals_eq, h]
  exact Naming.outcome_map_eq_ok.2 ⟨[], rfl, rfl⟩

/-- Where no rule is too long, the walk draws no name. -/
theorem splitLongRules_of_excess_eq_zero (h : g.excess = 0) :
    g.splitLongRules.outcome supply = (.ok (g.splitBy []), supply) := by
  rw [splitLongRules_eq, h]
  exact Naming.outcome_map_eq_ok.2 ⟨[], rfl, rfl⟩

/-- Without stand-ins, isolating terminals gives the same rules again. -/
theorem sameRules_isolatedBy_nil (nodup : g.names.Nodup) (hstart : g.start ∈ g.names) :
    (g.isolatedBy []).SameRules g where
  start_eq := start_isolatedBy g []
  mem_names := by
    intro name
    constructor
    · intro hname
      rcases mem_names_isolatedBy hname hstart with hold | ⟨c, hc⟩
      · exact hold
      · rw [List.zip_nil_right] at hc
        cases hc
    · exact fun hname ↦ mem_names_rebuild.2 (Or.inr (Or.inl hname))
  mem_rules := by
    intro name rule
    rw [mem_rules_isolatedBy nodup, List.zip_nil_right]
    simp [Rule.replaceTerminals_nil]

theorem links_eq_nil_of_mem_dealLinks {dealt : Production × List Char}
    (h : dealt ∈ dealLinks g.productions []) : dealt.2 = [] :=
  List.subset_nil.1 (mem_of_mem_dealLinks h).2

/-- Without links, splitting gives the same rules again. -/
theorem sameRules_splitBy_nil (nodup : g.names.Nodup) (hstart : g.start ∈ g.names) :
    (g.splitBy []).SameRules g where
  start_eq := start_splitBy g []
  mem_names := by
    intro name
    constructor
    · intro hname
      rcases mem_names_splitBy hname hstart with hold | ⟨dealt, hdealt, p, hp, _⟩
      · exact hold
      · rw [links_eq_nil_of_mem_dealLinks hdealt, Rule.splitChain_of_nil] at hp
        cases hp
    · exact fun hname ↦ mem_names_rebuild.2 (Or.inr (Or.inl hname))
  mem_rules := by
    intro name rule
    constructor
    · intro mem
      have ⟨dealt, hdealt, hrule⟩ := mem_rules_splitBy.1 mem
      rw [links_eq_nil_of_mem_dealLinks hdealt, Rule.splitChain_of_nil] at hrule
      rcases hrule with ⟨rfl, rfl⟩ | hrule
      · exact mem_rules_of_mem_dealLinks nodup hdealt
      · cases hrule
    · intro mem
      have ⟨dealt, hdealt, e⟩ := exists_dealt nodup mem []
      refine mem_rules_splitBy.2 ⟨dealt, hdealt, Or.inl ?_⟩
      rw [links_eq_nil_of_mem_dealLinks hdealt, Rule.splitChain_of_nil, e]
      exact ⟨rfl, rfl⟩

theorem misplacedTerminals_eq_nil (nodup : g.names.Nodup)
    (form : ∀ name, ∀ rule ∈ g.rules name, rule.IsChomsky) : g.misplacedTerminals = [] := by
  have hnone : ∀ p ∈ g.productions, Rule.misplacedTerminals p.right = [] := fun p hp ↦
    (form p.left p.right ((mem_productions nodup).1 hp)).misplacedTerminals_eq_nil
  rw [misplacedTerminals, List.flatMap_eq_nil_iff.2 hnone]
  rfl

theorem excess_eq_zero (nodup : g.names.Nodup)
    (form : ∀ name, ∀ rule ∈ g.rules name, rule.IsChomsky) : g.excess = 0 := by
  rw [excess_eq_sum, List.sum_eq_zero_iff_forall_eq_nat, List.forall_mem_map]
  exact fun p hp ↦ (form p.left p.right ((mem_productions nodup).1 hp)).excess_eq_zero

/-- A tidy grammar needs no new start symbol. -/
theorem Tidy.freshStart (tidy : g.Tidy policy) (supply : NameSupply) :
    (g.freshStart policy).outcome supply = (.ok g, supply) := by
  have hneeds : ¬g.needsFreshStart policy = true := by
    intro h
    have ⟨hkeeps, hmentions⟩ := needsFreshStart_iff.1 h
    have ⟨name, rule, mem, hstart⟩ := (mentions_iff tidy.names_nodup).1 hmentions
    exact tidy.unmentioned (tidy.keepsEmptyWord_iff.1 hkeeps) name rule mem hstart
  rw [Grammar.freshStart, if_neg hneeds]
  rfl

/-- The steps of a conversion, put together. -/
theorem outcome_toChomsky {started isolated result : Grammar} {before between after : NameSupply}
    (hstart : (g.freshStart policy).outcome supply = (.ok started, before))
    (hisolate : (started.cleaned policy).isolateTerminals.outcome before = (.ok isolated, between))
    (hsplit : isolated.splitLongRules.outcome between = (.ok result, after)) :
    (g.toChomsky policy).outcome supply =
      (.ok ⟨result, .of g.isStartNullable policy, started.cyclesMet policy⟩, after) := by
  rw [toChomsky, Naming.outcome_bind_eq_ok]
  refine ⟨started, before, hstart, ?_⟩
  rw [Naming.outcome_bind_eq_ok]
  refine ⟨isolated, between, hisolate, ?_⟩
  rw [Naming.outcome_bind_eq_ok]
  exact ⟨result, after, hsplit, rfl⟩

/-- A grammar in normal form without useless symbols goes through the conversion unchanged. -/
theorem Tidy.exists_toChomsky (tidy : g.Tidy policy) (closed : g.Closed) (useful : g.UsefulOrBare)
    (form : ∀ name, ∀ rule ∈ g.rules name, rule.IsChomsky) (supply : NameSupply) :
    ∃ result, (g.toChomsky policy).outcome supply =
        (.ok ⟨result, .of g.isStartNullable policy, []⟩, supply) ∧
      result.SameRules g ∧ result.WellFormed := by
  have nodup := (wellFormed_cleaned g policy).names_nodup
  have hcleaned : (g.cleaned policy).SameRules g :=
    tidy.sameRules_cleaned.trans (useful.sameRules tidy.toWellFormed closed)
  have hisolated := sameRules_isolatedBy_nil nodup (closed_cleaned g policy).start_mem
  have wf' : ((g.cleaned policy).isolatedBy []).WellFormed := wellFormed_rebuild _ _
  have fronted' : ((g.cleaned policy).isolatedBy []).Fronted := fronted_rebuild _ _
  have hresult := sameRules_splitBy_nil wf'.names_nodup fronted'.start_mem
  have form' : ∀ name, ∀ rule ∈ (g.cleaned policy).rules name, rule.IsChomsky := fun name rule mem ↦
    form name rule ((hcleaned.mem_rules name rule).1 mem)
  have form'' : ∀ name, ∀ rule ∈ ((g.cleaned policy).isolatedBy []).rules name, rule.IsChomsky :=
    fun name rule mem ↦ form' name rule ((hisolated.mem_rules name rule).1 mem)
  have wf'' : (((g.cleaned policy).isolatedBy []).splitBy []).WellFormed := wellFormed_rebuild _ _
  have run := outcome_toChomsky (tidy.freshStart supply)
    (isolateTerminals_of_misplacedTerminals_eq_nil (misplacedTerminals_eq_nil nodup form'))
    (splitLongRules_of_excess_eq_zero (excess_eq_zero wf'.names_nodup form''))
  rw [tidy.cyclesMet_eq_nil] at run
  exact ⟨_, run, (hresult.trans hisolated).trans hcleaned, wf''⟩

namespace ChomskyRun

variable {n : Normalization} (run : g.ChomskyRun policy n)

include run

theorem isChomsky_of_mem_rules (mem : rule ∈ n.grammar.rules name) : rule.IsChomsky := by
  have hp : ⟨name, rule⟩ ∈ n.grammar.productions := (mem_productions run.nodup_names).2 mem
  rcases run.form_of_mem_productions hp with h | h | ⟨h, _⟩
  · exact Or.inr (Or.inl h)
  · exact Or.inr (Or.inr h)
  · exact Or.inl h

theorem keepsEmptyWord_and_eq_start (mem : [] ∈ n.grammar.rules name) :
    g.KeepsEmptyWord policy ∧ name = n.grammar.start := by
  have hp : ⟨name, []⟩ ∈ n.grammar.productions := (mem_productions run.nodup_names).2 mem
  rcases run.form_of_mem_productions hp with ⟨c, hc⟩ | ⟨one, other, hpair⟩ | ⟨_, hnil⟩
  · cases hc
  · cases hpair
  · have hkeeps := run.keepsEmptyWord_of_nil_mem hnil
    exact ⟨hkeeps, run.eq_start_of_nil_mem hkeeps hnil⟩

/-- A Chomsky normal form is tidy, so the conversion leaves it alone from its first stage on. -/
theorem tidy : n.grammar.Tidy policy where
  toWellFormed := by
    rw [run.grammar_eq]
    exact wellFormed_rebuild _ _
  start_mem := by
    rw [run.grammar_eq]
    exact (fronted_rebuild _ _).start_mem
  not_unit := fun _ _ mem ↦ (run.isChomsky_of_mem_rules mem).soleNonterminal?_eq_none
  eq_start := fun _ mem ↦ (run.keepsEmptyWord_and_eq_start mem).2
  keepAtStart := fun mem ↦ (run.keepsEmptyWord_and_eq_start mem).1.1
  unmentioned := by
    intro mem left rule hrule hstart
    have hmentions := run.mentions_start_eq_false (run.keepsEmptyWord_and_eq_start mem).1
    rw [(mentions_iff run.nodup_names).2 ⟨left, rule, hrule, hstart⟩] at hmentions
    cases hmentions

end ChomskyRun

/-! ## Greibach normal form -/

theorem isGreibach_iff (nodup : g.names.Nodup) :
    g.isGreibach = true ↔ ∀ name, ∀ rule ∈ g.rules name, Rule.beginsWithTerminal rule = true := by
  rw [isGreibach, List.all_eq_true]
  constructor
  · exact fun h name rule mem ↦ h ⟨name, rule⟩ ((mem_productions nodup).2 mem)
  · exact fun h p hp ↦ h p.left p.right ((mem_productions nodup).1 hp)

/-- A Greibach normal form is tidy for the policy that drops the empty word. -/
theorem tidy_of_isGreibach (wf : g.WellFormed) (hstart : g.start ∈ g.names) (h : g.isGreibach = true) :
    g.Tidy .drop := by
  have hterminal := (isGreibach_iff wf.names_nodup).1 h
  have hnil (name : Char) : [] ∉ g.rules name := fun mem ↦ by cases hterminal name [] mem
  refine ⟨wf, hstart, fun name rule mem ↦ ?_, fun name mem ↦ absurd mem (hnil name),
    fun mem ↦ absurd mem (hnil _), fun mem ↦ absurd mem (hnil _)⟩
  have ⟨c, tail, e⟩ := Rule.beginsWithTerminal_iff.1 (hterminal name rule mem)
  subst e
  cases tail <;> rfl

end Grammar

namespace Entry

variable {entry : Entry} {stop : RepetitionStop} {done rest : List Entry} {supply : NameSupply}

/-- No rule of the entry begins with a nonterminal. -/
structure Unled (entry : Entry) : Prop where
  nodup : entry.rules.Nodup
  leader?_eq_none : ∀ rule ∈ entry.rules, Rule.leader? rule = none

theorem Unled.spliceLeading (unled : entry.Unled) (earlier : Entry) :
    entry.spliceLeading earlier = entry := by
  have hrules : (entry.rules.flatMap fun rule ↦ if Rule.leader? rule = some earlier.name then
      earlier.rules.map (· ++ rule.tail) else [rule]) = entry.rules.flatMap fun rule ↦ [rule] := by
    apply List.flatMap_congr
    intro rule mem
    rw [unled.leader?_eq_none rule mem]
    rfl
  rw [Entry.spliceLeading, hrules, List.flatMap_singleton', distinct_eq_self unled.nodup]

theorem Unled.recursiveTails (unled : entry.Unled) : entry.recursiveTails = [] := by
  rw [List.eq_nil_iff_forall_not_mem]
  intro tail htail
  have hleader := unled.leader?_eq_none _ (mem_recursiveTails.1 htail).1
  cases hleader

theorem Unled.otherRules (unled : entry.Unled) : entry.otherRules = entry.rules := by
  rw [Entry.otherRules, List.filter_eq_self]
  intro rule mem
  rw [unled.leader?_eq_none rule mem]
  rfl

/-- Without leading nonterminals there is nothing to unwind. -/
theorem unwind_of_unled (h : ∀ entry ∈ rest, entry.Unled) :
    (unwind stop done rest).outcome supply = (.ok ⟨done ++ rest, []⟩, supply) := by
  induction rest generalizing done with
  | nil =>
    rw [List.append_nil]
    rfl
  | cons entry rest ih =>
    have ⟨unled, hrest⟩ := List.forall_mem_cons.1 h
    have hentry : done.foldl Entry.spliceLeading entry = entry :=
      List.foldl_fixed' unled.spliceLeading done
    simp only [unwind, hentry, unled.recursiveTails, unled.otherRules, List.isEmpty_nil, if_true]
    rw [ih hrest, List.append_assoc]
    rfl

end Entry

namespace Grammar

variable {g : Grammar} {stop : RepetitionStop} {supply : NameSupply}

theorem sameRules_ofEntries (nodup : g.names.Nodup) (hstart : g.start ∈ g.names) :
    (ofEntries g.start g.entries).SameRules g where
  start_eq := start_ofEntries g.start g.entries
  mem_names := by
    intro name
    rw [mem_names_ofEntries]
    exact or_iff_right_of_imp fun e ↦ e ▸ hstart
  mem_rules := fun _ _ ↦ mem_rules_ofEntries_iff_mk nodup

/-- Where no rule is led by a nonterminal, nothing is unwound and no name is drawn. -/
theorem outcome_withoutLeftRecursion_of_unled (stop : RepetitionStop)
    (h : ∀ entry ∈ g.entries, entry.Unled) (supply : NameSupply) :
    (g.withoutLeftRecursion stop).outcome supply = (.ok (ofEntries g.start g.entries), supply) := by
  have hunwound : (unwind stop [] g.entries).outcome supply = (.ok ⟨g.entries, []⟩, supply) :=
    Entry.unwind_of_unled h
  rw [withoutLeftRecursion, Naming.outcome_bind_eq_ok]
  refine ⟨⟨g.entries, []⟩, supply, hunwound, ?_⟩
  rw [List.append_nil]
  rfl

/-- A grammar in Greibach normal form is a fixed point of the back substitution. -/
theorem backSubstitute_of_isGreibach (h : g.isGreibach = true) : g.backSubstitute = g := by
  rw [backSubstitute, backSubstitutePasses, if_pos (isGreibach_iff_settled.1 h)]

/-- A grammar in normal form only loses its useless symbols in the conversion. -/
theorem exists_toGreibach (wf : g.WellFormed) (hstart : g.start ∈ g.names) (h : g.isGreibach = true)
    (supply : NameSupply) : ∃ result,
      g.toGreibach.outcome supply = (.ok ⟨result, .of g.isStartNullable .drop, []⟩, supply) ∧
      result.SameRules g.withoutUselessSymbols ∧ result.WellFormed := by
  have tidy := tidy_of_isGreibach wf hstart h
  have hcleaned := tidy.sameRules_cleaned
  have wf' := wellFormed_cleaned g .drop
  have hentries := sameRules_ofEntries wf'.names_nodup (closed_cleaned g .drop).start_mem
  have hterminal (name : Char) (rule : Rule) (mem : rule ∈ (g.cleaned .drop).rules name) :
      Rule.beginsWithTerminal rule = true := by
    have hrule := mem_rules_withoutUselessSymbols.1 ((hcleaned.mem_rules name rule).1 mem)
    exact (isGreibach_iff wf.names_nodup).1 h name rule hrule.1
  have unled : ∀ entry ∈ (g.cleaned .drop).entries, entry.Unled := by
    intro entry mem
    refine ⟨wf'.rules_nodup entry mem, fun rule hrule ↦ ?_⟩
    rw [← rules_of_mem wf'.names_nodup mem] at hrule
    have ⟨c, tail, e⟩ := Rule.beginsWithTerminal_iff.1 (hterminal entry.name rule hrule)
    rw [e]
    rfl
  have hunwound := outcome_withoutLeftRecursion_of_unled .withoutRepeater unled supply
  have hgreibach : (ofEntries (g.cleaned .drop).start (g.cleaned .drop).entries).isGreibach = true := by
    apply (isGreibach_iff (wellFormed_ofEntries _ _).names_nodup).2
    exact fun name rule mem ↦ hterminal name rule ((hentries.mem_rules name rule).1 mem)
  refine ⟨_, ?_, hentries.trans hcleaned, wellFormed_ofEntries _ _⟩
  rw [toGreibach, Naming.outcome_bind_eq_ok]
  refine ⟨_, supply, hunwound, ?_⟩
  rw [backSubstitute_of_isGreibach hgreibach, tidy.cyclesMet_eq_nil]
  rfl

/-! ## Simplification -/

theorem tidy_cleaned_drop (nodup : g.names.Nodup) : (g.cleaned .drop).Tidy .drop := by
  have hnil (name : Char) : [] ∉ (g.cleaned .drop).rules name := nil_notMem_rules_cleaned_drop nodup
  exact ⟨wellFormed_cleaned g .drop, (closed_cleaned g .drop).start_mem,
    fun name rule mem ↦ (exists_chain_of_mem_rules_cleaned mem).1,
    fun name mem ↦ absurd mem (hnil name), fun mem ↦ absurd mem (hnil _), fun mem ↦ absurd mem (hnil _)⟩

/-- Cleaning twice gives the rules that cleaning once gives. -/
theorem sameRules_cleaned_cleaned (nodup : g.names.Nodup) :
    ((g.cleaned .drop).cleaned .drop).SameRules (g.cleaned .drop) :=
  (tidy_cleaned_drop nodup).sameRules_cleaned.trans
    ((usefulOrBare_cleaned g .drop).sameRules (wellFormed_cleaned g .drop) (closed_cleaned g .drop))

/-! ## Main results -/

/-- What a conversion to Chomsky normal form yields is unchanged by another one, a grammar in Greibach
normal form loses its useless symbols at most, and what was simplified cannot be simplified further.
None of this takes a name from the supply. -/
theorem canonicalRules_normalize_again :
    (∀ g : Grammar, g.WellFormed → g.Closed → ∀ policy supply rest, ∀ n : Normalization,
      g.names ⊆ supply.taken → (g.toChomsky policy).outcome supply = (.ok n, rest) →
      ∀ other : NameSupply, ∃ again : Normalization,
        (n.grammar.toChomsky policy).outcome other = (.ok again, other) ∧
        again.grammar.start = n.grammar.start ∧
        again.grammar.canonicalRules = n.grammar.canonicalRules ∧ again.unitCycles = []) ∧
    (∀ g : Grammar, g.WellFormed → g.start ∈ g.names → g.isGreibach = true →
      ∀ supply : NameSupply, ∃ n : Normalization, g.toGreibach.outcome supply = (.ok n, supply) ∧
        n.grammar.start = g.withoutUselessSymbols.start ∧
        n.grammar.canonicalRules = g.withoutUselessSymbols.canonicalRules ∧ n.unitCycles = []) ∧
    ∀ g : Grammar, g.WellFormed → ∀ n : Normalization, n = (g.simplify .drop).grammar.simplify .drop →
      n.grammar.start = (g.simplify .drop).grammar.start ∧
      n.grammar.canonicalRules = (g.simplify .drop).grammar.canonicalRules ∧ n.unitCycles = [] := by
  refine ⟨fun g wf closed policy supply rest n taken run other ↦ ?_, fun g wf hstart h supply ↦ ?_, ?_⟩
  · have covers := NameSupply.covers_of_closed wf.names_nodup closed taken
    have ⟨⟨steps⟩, _⟩ := exists_chomskyRun wf.names_nodup covers run
    have ⟨result, hresult, same, wf'⟩ := steps.tidy.exists_toChomsky steps.closed steps.usefulOrBare
      (fun _ _ ↦ steps.isChomsky_of_mem_rules) other
    exact ⟨_, hresult, same.start_eq, same.canonicalRules_eq wf' steps.tidy.toWellFormed, rfl⟩
  · have ⟨result, hresult, same, wf'⟩ := exists_toGreibach wf hstart h supply
    have hcanonical := same.canonicalRules_eq wf' (wellFormed_withoutUselessSymbols wf)
    exact ⟨_, hresult, same.start_eq, hcanonical, rfl⟩
  · rintro g wf n rfl
    have same := sameRules_cleaned_cleaned wf.names_nodup
    have hcanonical := same.canonicalRules_eq (wellFormed_cleaned _ _) (wellFormed_cleaned g .drop)
    have hcycles := (tidy_cleaned_drop wf.names_nodup).cyclesMet_eq_nil
    simp only [simplify]
    exact ⟨same.start_eq, hcanonical, hcycles⟩

/-- A grammar in Greibach normal form with a nonterminal without words, one that cannot be reached and
one without rules. -/
def overgrown : Grammar :=
  ⟨[⟨'C', [[.terminal 'c']]⟩,
    ⟨'S', [[.terminal 'b', .nonterminal 'B'], [.terminal 'a', .nonterminal 'S'], [.terminal 'a']]⟩,
    ⟨'B', [[.terminal 'b', .nonterminal 'B'], [.terminal 'b', .nonterminal 'D']]⟩, ⟨'D', []⟩], 'S'⟩

theorem canonicalRules_normalize_again_overgrown :
    (∃ again, (nestedPairs.toChomsky .keepAtStart).outcome (.avoiding nestedPairs) =
        (.ok again, .avoiding nestedPairs) ∧
      again.grammar.canonicalRules = nestedPairs.canonicalRules) ∧
    (∃ n, overgrown.toGreibach.outcome (.avoiding overgrown) = (.ok n, .avoiding overgrown) ∧
      n.grammar.canonicalRules = [('S', [[.terminal 'a'], [.terminal 'a', .nonterminal 'S']])]) ∧
    (untangled.simplify .drop).grammar.canonicalRules = untangled.canonicalRules := by
  have ⟨hchomsky, hgreibach, hsimplify⟩ := canonicalRules_normalize_again
  refine ⟨?_, ?_, ?_⟩
  · have ⟨again, hagain, _, hcanonical, _⟩ := hchomsky nested wellFormed_nested closed_nested
      .keepAtStart _ _ _ (List.Subset.refl _) toChomsky_nested (.avoiding nestedPairs)
    exact ⟨again, hagain, hcanonical⟩
  · have wf : overgrown.WellFormed := ⟨by decide, by decide⟩
    have ⟨n, hn, _, hcanonical, _⟩ :=
      hgreibach overgrown wf (by decide) (by decide) (.avoiding overgrown)
    refine ⟨n, hn, hcanonical.trans ?_⟩
    decide
  · have wf : tangled.WellFormed := ⟨by decide, by decide⟩
    have ⟨_, hcanonical, _⟩ := hsimplify tangled wf _ rfl
    rw [simplify_tangled] at hcanonical
    exact hcanonical

end Grammar

end GrammarForms
