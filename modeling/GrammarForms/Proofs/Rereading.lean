import GrammarForms.Proofs.Issuing
import GrammarForms.Proofs.RoundTrip
import GrammarForms.Proofs.RuleSets
import GrammarForms.Proofs.Usefulness

/-!
# Reading Results Again

A listing passes over the nonterminals without rules, so it can be read again as the same grammar only
if every nonterminal has a rule.  After the eliminations every nonterminal is useful, or else the start
symbol is left alone.  The later steps of a normalization keep the words or the rules of each
nonterminal, and every new nonterminal comes with rules.  So the result of a normalization can be read
again unless it has no word at all.

The removal of left recursion alone does not go through the eliminations.  A nonterminal whose rules
all begin with itself then has no rule left, though other rules may still mention it.
-/

namespace GrammarForms

namespace NameSupply

variable {supply rest : NameSupply} {issued : List Char}

theorem Issues.subset_letters (issues : supply.Issues issued rest) : issued ⊆ letters := by
  induction issues with
  | nil => exact List.nil_subset letters
  | cons request _ ih => exact List.cons_subset.2 ⟨(mem_free.1 (mem_free_of_fresh request).1).1, ih⟩

end NameSupply

/-! ## Repeaters have rules -/

theorem RepetitionStop.repeaterRules_ne_nil (stop : RepetitionStop) (repeater : Char)
    {tails : List Rule} (h : tails ≠ []) : stop.repeaterRules repeater tails ≠ [] := by
  have ⟨tail, htail⟩ := List.exists_mem_of_ne_nil tails h
  have hrepeated : tail ++ [.nonterminal repeater] ∈ stop.repeated repeater tails :=
    mem_repeated.2 ⟨tail, htail, Or.inl rfl⟩
  exact List.ne_nil_of_mem (mem_repeaterRules.2 (Or.inl hrepeated))

/-- Treating the entries changes none of their names, and every repeater has a rule. -/
theorem names_and_repeaters_of_unwind {stop : RepetitionStop} {done rest : List Entry}
    {supply supply' : NameSupply} {unwound : Unwound}
    (run : (unwind stop done rest).outcome supply = (.ok unwound, supply')) :
    unwound.entries.map (·.name) = (done ++ rest).map (·.name) ∧
      ∀ repeater ∈ unwound.repeaters, repeater.rules ≠ [] := by
  induction rest generalizing done supply unwound with
  | nil =>
    obtain ⟨hunwound, _⟩ := Naming.outcome_pure_eq_ok.1 run
    rw [← hunwound, List.append_nil]
    exact ⟨rfl, by simp⟩
  | cons entry rest ih =>
    have hname : (done.foldl Entry.spliceLeading entry).name = entry.name := Entry.name_splice
    rw [unwind] at run
    split at run
    · obtain ⟨hnames, hrepeaters⟩ := ih run
      refine ⟨?_, hrepeaters⟩
      rw [hnames]
      simp [hname]
    · rename_i htails
      obtain ⟨repeater, middle, _, run⟩ := Naming.outcome_bind_eq_ok.1 run
      obtain ⟨inner, last, hinner, run⟩ := Naming.outcome_bind_eq_ok.1 run
      obtain ⟨hunwound, hlast⟩ := Naming.outcome_pure_eq_ok.1 run
      subst hunwound hlast
      obtain ⟨hnames, hrepeaters⟩ := ih hinner
      constructor
      · rw [hnames]
        simp [hname]
      · rw [List.forall_mem_cons]
        refine ⟨stop.repeaterRules_ne_nil repeater ?_, hrepeaters⟩
        simpa using htails

namespace Grammar

variable {g h unwound : Grammar} {n : Normalization} {policy : EmptyWordPolicy} {stop : RepetitionStop}
  {supply rest : NameSupply} {name : Char} {issued led : List Char} {text : String}

/-! ## Grammars that can be written -/

/-- Names drawn from the supply of a writable grammar are capital letters. -/
theorem isUpper_of_mem_taken (writable : g.Writable)
    (issues : (NameSupply.avoiding g).Issues issued rest) (h : name ∈ rest.taken) :
    name.isUpper = true := by
  rw [issues.taken_eq, List.mem_append, List.mem_reverse] at h
  rcases h with h | h
  · exact NameSupply.isUpper_of_mem_letters name (issues.subset_letters h)
  · exact writable.isUpper name h

/-- Every nonterminal has a rule. -/
def Ruled (g : Grammar) : Prop :=
  ∀ name ∈ g.names, g.rules name ≠ []

/-- A nonterminal with a word has a rule. -/
theorem ruled_of_generates (h : ∀ name ∈ g.names, ∃ word, g.Generates name word) : g.Ruled := by
  intro name hname
  have ⟨_, hword⟩ := h name hname
  have ⟨_, mem, _⟩ := mem_language_iff.1 hword
  exact List.ne_nil_of_mem mem

/-- A grammar that takes the place of one that can be written can be written itself if its
nonterminals come from the supply and have rules. -/
theorem TurnsInto.writable (turnsInto : g.TurnsInto h) (writable : g.Writable)
    (issues : (NameSupply.avoiding g).Issues issued rest) (subset : h.names ⊆ rest.taken)
    (ruled : h.Ruled) : h.Writable where
  toInOrder := turnsInto.inOrder
  isUpper := fun _ hname ↦ isUpper_of_mem_taken writable issues (subset hname)
  rules_ne_nil := by
    intro entry mem
    rw [← rules_of_mem turnsInto.inOrder.names_nodup mem]
    exact ruled entry.name (List.mem_map_of_mem mem)
  terminal := fun c huses ↦ writable.terminal c (turnsInto.uses_terminal c huses)

theorem Writable.ruled (writable : g.Writable) : g.Ruled := by
  intro name hname
  have ⟨entry, mem, e⟩ := List.mem_map.1 hname
  subst e
  rw [rules_of_mem writable.names_nodup mem]
  exact writable.rules_ne_nil entry mem

/-! ## Steps that keep the rules of each nonterminal -/

theorem Ruled.expandLeaders (ruled : g.Ruled) (order : g.InOrder) : (g.expandLeaders led).Ruled := by
  intro name hname
  rw [names_expandLeaders] at hname
  have ⟨rule, mem⟩ := List.exists_mem_of_ne_nil _ (ruled name hname)
  by_cases hkept : name ∈ led ∨ ∀ leader ∈ led, Rule.leader? rule ≠ some leader
  · exact List.ne_nil_of_mem (mem_rules_expandLeaders.2 (Or.inl ⟨mem, hkept⟩))
  · push Not at hkept
    have ⟨hled, leader, hleader, e⟩ := hkept
    have ⟨tail, hrule⟩ := Rule.leader?_eq_some.1 e
    subst hrule
    -- The leader has a rule to put in its place, since it is a nonterminal of the grammar.
    have hmem : leader ∈ g.names :=
      order.mem_names (uses_of_mem_rules order.names_nodup mem List.mem_cons_self)
    have ⟨source, hsource⟩ := List.exists_mem_of_ne_nil _ (ruled leader hmem)
    apply List.ne_nil_of_mem (a := source ++ tail)
    exact mem_rules_expandLeaders.2 (Or.inr ⟨hled, leader, hleader, tail, mem, source, hsource, rfl⟩)

/-- Back substitution takes the last rule from no nonterminal. -/
theorem Ruled.backSubstitute (ruled : g.Ruled) (order : g.InOrder) : g.backSubstitute.Ruled := by
  have hback : g.backSubstitute.InOrder ∧ g.backSubstitute.Ruled := by
    apply backSubstitutePasses_induction (P := fun h ↦ h.InOrder ∧ h.Ruled)
    · exact fun h ⟨order, ruled⟩ ↦ ⟨(turnsInto_expandLeaders order).inOrder, ruled.expandLeaders order⟩
    · exact ⟨order, ruled⟩
  exact hback.2

/-- The removal of left recursion keeps all entries. -/
theorem names_subset_withoutLeftRecursion
    (run : (g.withoutLeftRecursion stop).outcome supply = (.ok unwound, rest)) :
    g.names ⊆ unwound.names := by
  have ⟨result, middle, hunwind, hpure⟩ := Naming.outcome_bind_eq_ok.1 run
  have ⟨hunwound, _⟩ := Naming.outcome_pure_eq_ok.1 hpure
  have ⟨hnames, _⟩ := names_and_repeaters_of_unwind hunwind
  subst hunwound
  intro name hname
  rw [mem_names_ofEntries, List.map_append, List.mem_append, hnames]
  exact Or.inr (Or.inl hname)

/-- Only nonterminals that were there before can be left without rules. -/
theorem mem_names_or_ruled_of_withoutLeftRecursion (order : g.InOrder) (taken : g.names ⊆ supply.taken)
    (run : (g.withoutLeftRecursion stop).outcome supply = (.ok unwound, rest))
    (hname : name ∈ unwound.names) : name ∈ g.names ∨ unwound.rules name ≠ [] := by
  have covers := NameSupply.covers_of_closed order.names_nodup order.toClosed taken
  obtain ⟨result, middle, hunwind, hpure⟩ := Naming.outcome_bind_eq_ok.1 run
  obtain ⟨hunwound, _⟩ := Naming.outcome_pure_eq_ok.1 hpure
  obtain ⟨hnames, hrepeaters⟩ := names_and_repeaters_of_unwind hunwind
  have steps : Unwinding.Steps stop ⟨[], g.entries, [], supply⟩
      ⟨result.entries, [], result.repeaters, middle⟩ := Unwinding.steps_of_unwind hunwind
  have hsource : Registered supply.taken ([] ++ g.entries ++ []) := by
    rw [List.append_nil]
    exact registered_of_covers order.names_nodup covers
  have keeps : Unwinding.Keeps _ _ g.start := Unwinding.keeps_of_steps steps hsource
  have registered := keeps.registered
  simp only [Unwinding.entries, List.append_nil] at registered
  subst hunwound
  rcases mem_names_ofEntries.1 hname with e | hname
  · exact Or.inl (e ▸ order.start_mem)
  · rw [List.map_append, List.mem_append, hnames, List.nil_append] at hname
    rcases hname with hname | hname
    · exact Or.inl hname
    · right
      -- The name is new, so it is that of a repeater, which repeats at least one tail.
      obtain ⟨repeater, mem, e⟩ := List.mem_map.1 hname
      obtain ⟨rule, hrule⟩ := List.exists_mem_of_ne_nil _ (hrepeaters repeater mem)
      subst e
      apply List.ne_nil_of_mem (a := rule)
      exact (mem_rules_ofEntries_of_mem registered.nodup (List.mem_append_right _ mem)).2 hrule

/-- Where every nonterminal generates a word, the removal of left recursion leaves none without
rules. -/
theorem ruled_withoutLeftRecursion (order : g.InOrder) (taken : g.names ⊆ supply.taken)
    (generates : ∀ name ∈ g.names, ∃ word, g.Generates name word)
    (run : (g.withoutLeftRecursion stop).outcome supply = (.ok unwound, rest)) : unwound.Ruled := by
  have covers := NameSupply.covers_of_closed order.names_nodup order.toClosed taken
  intro name hname
  rcases mem_names_or_ruled_of_withoutLeftRecursion order taken run hname with hold | hrules
  · have ⟨word, hword⟩ := generates name hold
    have hlanguage := language_withoutLeftRecursion order.names_nodup covers run (taken hold)
    have hword' : word ∈ unwound.language name := hlanguage ▸ hword
    have ⟨rule, mem, _⟩ := mem_language_iff.1 hword'
    exact List.ne_nil_of_mem mem
  · exact hrules

/-! ## The start symbol alone -/

theorem withoutLeftRecursion_ofStart (start : Char) (stop : RepetitionStop) (supply : NameSupply) :
    ((ofStart start).withoutLeftRecursion stop).outcome supply = (.ok (ofStart start), supply) := by
  have hentries : ofEntries start [⟨start, []⟩] = ofStart start := by
    simp [ofEntries, replaceRules, Grammar.alter, Grammar.declare, names, ofStart, distinct]
  change (Except.ok (ofEntries start [⟨start, []⟩]), supply) = _
  rw [hentries]

/-! ## Results of normalizations -/

/-- Every nonterminal has a rule, unless the start symbol alone is left. -/
def RuledOrBare (g : Grammar) : Prop :=
  g.Ruled ∨ g = ofStart g.start

theorem UsefulOrBare.ruledOrBare (useful : g.UsefulOrBare) : g.RuledOrBare :=
  useful.imp_left fun useful ↦ ruled_of_generates useful.generates

/-- In a Chomsky normal form every nonterminal has a rule, or the start symbol stands alone. -/
theorem ruledOrBare_toChomsky (order : g.InOrder) (taken : g.names ⊆ supply.taken)
    (run : (g.toChomsky policy).outcome supply = (.ok n, rest)) : n.grammar.RuledOrBare := by
  have covers := NameSupply.covers_of_closed order.names_nodup order.toClosed taken
  have ⟨⟨steps⟩, _⟩ := exists_chomskyRun order.names_nodup covers run
  exact steps.usefulOrBare.ruledOrBare

theorem ruledOrBare_toGreibach (order : g.InOrder) (taken : g.names ⊆ supply.taken)
    (run : g.toGreibach.outcome supply = (.ok n, rest)) : n.grammar.RuledOrBare := by
  have ⟨unwound, hunwound, hgrammar, _⟩ := exists_unwound run
  have hcleaned := (turnsInto_cleaned order .drop).inOrder
  have taken := names_cleaned_subset_taken order taken .drop
  rw [hgrammar]
  rcases usefulOrBare_cleaned g .drop with useful | hbare
  · left
    have ruled := ruled_withoutLeftRecursion hcleaned taken useful.generates hunwound
    exact ruled.backSubstitute (turnsInto_withoutLeftRecursion hcleaned taken hunwound).1.inOrder
  · right
    rw [hbare, withoutLeftRecursion_ofStart] at hunwound
    cases hunwound
    rfl

/-- A result of one of the normalizations, with the names of the grammar taken. -/
inductive NormalizesTo (g : Grammar) : Normalization → Prop where
  | simplify (policy : EmptyWordPolicy) : NormalizesTo g (g.simplify policy)
  | toChomsky {policy : EmptyWordPolicy} {n : Normalization} {rest : NameSupply}
      (run : (g.toChomsky policy).outcome (.avoiding g) = (.ok n, rest)) : NormalizesTo g n
  | toGreibach {n : Normalization} {rest : NameSupply}
      (run : g.toGreibach.outcome (.avoiding g) = (.ok n, rest)) : NormalizesTo g n

/-- No normalization leaves an entry without rules, unless it is all there is. -/
theorem NormalizesTo.ruledOrBare (normalizes : g.NormalizesTo n) (order : g.InOrder) :
    n.grammar.RuledOrBare := by
  have taken : g.names ⊆ (NameSupply.avoiding g).taken := List.Subset.refl _
  cases normalizes with
  | simplify policy => exact (usefulOrBare_cleaned g policy).ruledOrBare
  | toChomsky run => exact ruledOrBare_toChomsky order taken run
  | toGreibach run => exact ruledOrBare_toGreibach order taken run

/-- The result takes the place of the grammar, and its nonterminals come from the supply. -/
theorem NormalizesTo.exists_issues (normalizes : g.NormalizesTo n) (order : g.InOrder) :
    g.TurnsInto n.grammar ∧ ∃ issued rest,
      (NameSupply.avoiding g).Issues issued rest ∧ n.grammar.names ⊆ rest.taken := by
  have taken : g.names ⊆ (NameSupply.avoiding g).taken := List.Subset.refl _
  cases normalizes with
  | simplify policy =>
    refine ⟨turnsInto_cleaned order policy, [], _, .nil _, ?_⟩
    exact names_cleaned_subset_taken order taken policy
  | @toChomsky policy _ _ run =>
    have ⟨hturns, hnames⟩ := turnsInto_toChomsky order taken run
    have ⟨issued, issues⟩ := Naming.onlyIssues_toChomsky g policy (.avoiding g)
    rw [run] at issues
    exact ⟨hturns, issued, _, issues, hnames⟩
  | toGreibach run =>
    have ⟨hturns, hnames⟩ := turnsInto_toGreibach order taken run
    have ⟨issued, issues⟩ := Naming.onlyIssues_toGreibach g (.avoiding g)
    rw [run] at issues
    exact ⟨hturns, issued, _, issues, hnames⟩

/-! ## Main results -/

/-- The text of a result reads as the result itself.  Only a result without any word is different: its
start symbol has no rule and its text is empty. -/
theorem parse_plain_of_normalizesTo (read : parse text = .ok g) (normalizes : g.NormalizesTo n) :
    (n.grammar.rules n.grammar.start ≠ [] → parse n.plain = .ok n.grammar) ∧
      (n.grammar.rules n.grammar.start = [] →
        (∀ word, ¬n.grammar.Accepts word) ∧ n.plain = "") := by
  have writable := writable_of_parse read
  have ⟨turnsInto, issued, rest, issues, subset⟩ := normalizes.exists_issues writable.toInOrder
  rcases normalizes.ruledOrBare writable.toInOrder with ruled | hbare
  · have hwritable := turnsInto.writable writable issues subset ruled
    refine ⟨fun _ ↦ parse_plain_listing hwritable, fun hnone ↦ ?_⟩
    exact absurd hnone (ruled _ turnsInto.inOrder.start_mem)
  · constructor
    · intro hsome
      rw [hbare, rules_ofStart] at hsome
      exact absurd rfl hsome
    · intro hnone
      constructor
      · intro word accepts
        have ⟨rule, mem, _⟩ := mem_language_iff.1 (accepts_iff.1 accepts)
        rw [hnone] at mem
        cases mem
      · rw [Normalization.plain, hbare]
        rfl

/-- A grammar without left recursion can be read again with the same rules exactly if the removal has
left every nonterminal a rule.  It has if every nonterminal generates a word, and then nothing changes
at all. -/
theorem parse_listing_withoutLeftRecursion_iff (read : parse text = .ok g)
    (run : (g.withoutLeftRecursion .emptyRule).outcome (.avoiding g) = (.ok unwound, rest)) :
    ((∃ again, parse unwound.listing.plain = .ok again ∧ again.start = unwound.start ∧
        again.canonicalRules = unwound.canonicalRules) ↔
      ∀ name ∈ g.names, unwound.rules name ≠ []) ∧
    ((∀ name ∈ g.names, ∃ word, g.Generates name word) →
      parse unwound.listing.plain = .ok unwound) := by
  have writable := writable_of_parse read
  have order := writable.toInOrder
  have taken : g.names ⊆ (NameSupply.avoiding g).taken := List.Subset.refl _
  have ⟨turnsInto, subset⟩ := turnsInto_withoutLeftRecursion order taken run
  have ⟨issued, issues⟩ := Naming.onlyIssues_withoutLeftRecursion g .emptyRule (.avoiding g)
  rw [run] at issues
  have hread (ruled : unwound.Ruled) : parse unwound.listing.plain = .ok unwound :=
    parse_plain_listing (turnsInto.writable writable issues subset ruled)
  have hnames : g.names ⊆ unwound.names := names_subset_withoutLeftRecursion run
  refine ⟨⟨?_, fun hrules ↦ ?_⟩, fun generates ↦ ?_⟩
  · intro ⟨again, hagain, _, hcanonical⟩ name hname
    have hwritable := writable_of_parse hagain
    have ⟨hsame, hrules⟩ :=
      (canonicalRules_eq_iff hwritable.toWellFormed turnsInto.inOrder.toWellFormed).1 hcanonical
    have hmem := (hsame name).2 (hnames hname)
    have ⟨rule, mem⟩ := List.exists_mem_of_ne_nil _ (hwritable.ruled name hmem)
    exact List.ne_nil_of_mem ((hrules name rule).1 mem)
  · refine ⟨unwound, hread fun name hname ↦ ?_, rfl, rfl⟩
    rcases mem_names_or_ruled_of_withoutLeftRecursion order taken run hname with hold | hrule
    · exact hrules name hold
    · exact hrule
  · exact hread (ruled_withoutLeftRecursion order taken generates run)

/-- The rules of the second nonterminal all begin with it. -/
def endless : Grammar :=
  ⟨[⟨'S', [[.terminal 'a', .nonterminal 'B'], [.terminal 'c']]⟩,
    ⟨'B', [[.nonterminal 'B', .terminal 'b']]⟩], 'S'⟩

def endlessUnwound : Grammar :=
  ⟨[⟨'S', [[.terminal 'a', .nonterminal 'B'], [.terminal 'c']]⟩, ⟨'B', []⟩,
    ⟨'A', [[.terminal 'b', .nonterminal 'A'], []]⟩], 'S'⟩

theorem parse_endless : parse "S → aB | c\nB → Bb" = .ok endless := by cbv

theorem withoutLeftRecursion_endless :
    (endless.withoutLeftRecursion .emptyRule).outcome (.avoiding endless) =
      (.ok endlessUnwound, ⟨['A', 'S', 'B']⟩) := by
  cbv

/-- A nonterminal whose rules are all recursive keeps an entry that the listing leaves out. -/
theorem parse_listing_withoutLeftRecursion_iff_endless :
    parse "S → aB | c\nB → Bb" = .ok endless ∧
      ¬∃ again, parse endlessUnwound.listing.plain = .ok again ∧
        again.start = endlessUnwound.start ∧
        again.canonicalRules = endlessUnwound.canonicalRules := by
  refine ⟨parse_endless, fun hagain ↦ ?_⟩
  have ⟨hiff, _⟩ := parse_listing_withoutLeftRecursion_iff parse_endless withoutLeftRecursion_endless
  exact hiff.1 hagain 'B' (by decide) rfl

/-- The text that is written need not read as any grammar. -/
theorem parse_listing_withoutLeftRecursion_endless :
    ∃ g unwound rest, parse "S → aB | c\nB → Bb" = .ok g ∧
      (g.withoutLeftRecursion .emptyRule).outcome (.avoiding g) = (.ok unwound, rest) ∧
      unwound.listing.plain = "S → aB | c\nA → bA | ε" ∧
      parse unwound.listing.plain = .error (.undefinedName 'B' 1) := by
  have hplain : endlessUnwound.listing.plain = "S → aB | c\nA → bA | ε" := by decide
  refine ⟨endless, endlessUnwound, _, parse_endless, withoutLeftRecursion_endless, hplain, ?_⟩
  rw [hplain]
  cbv

end Grammar

end GrammarForms
