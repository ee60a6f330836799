import GrammarForms.Proofs.Chomsky
import GrammarForms.Proofs.Greibach
import GrammarForms.Proofs.Transformations

/-!
# Conversions and Their Names

The removal of left recursion and the two conversions to normal forms bring new nonterminals with
them, each with an entry of its own and a name from the supply.  They turn a grammar in order into one
that can take its place, for every supply in which the names of the grammar are taken, and the names
of the result are taken in the supply that is left.
-/

namespace GrammarForms

/-! ## Removal of left recursion -/

namespace Grammar

variable {entry changed : Entry} {context done entries others : List Entry} {start : Char}
  {rule : Rule} {symbol : Symbol}

theorem extends_perm (perm : entries.Perm others) :
    (Grammar.mk entries start).Extends (Grammar.mk others start) where
  names_subset := (perm.map _).subset
  uses := by
    intro symbol huses
    have ⟨entry, mem, hentry⟩ := uses_iff_entries.1 huses
    exact Or.inl (uses_iff_entries.2 ⟨entry, perm.mem_iff.2 mem, hentry⟩)

/-- One entry gets other rules and is joined by new entries; the rules of all of them go back to symbols
that occurred before. -/
theorem extends_replace (added : List Entry) (hname : changed.name = entry.name)
    (h : ∀ other ∈ changed :: added, ∀ rule ∈ other.rules, ∀ symbol ∈ rule,
      (Grammar.mk (entry :: context) start).Uses symbol ∨
        ∃ new ∈ added, symbol = .nonterminal new.name) :
    (Grammar.mk (entry :: context) start).Extends (Grammar.mk (changed :: added ++ context) start) where
  names_subset := by
    have hcontext := List.subset_append_right (added.map (·.name)) (context.map (·.name))
    rw [← List.map_append] at hcontext
    rw [names, names, List.map_cons, List.cons_append, List.map_cons, hname]
    exact List.cons_subset_cons _ hcontext
  uses := by
    intro symbol huses
    obtain ⟨other, mem, rule, hrule, hsymbol⟩ := uses_iff_entries.1 huses
    rcases List.mem_append.1 mem with mem | mem
    · rcases h other mem rule hrule symbol hsymbol with hold | ⟨new, hnew, hsymbol⟩
      · exact Or.inl hold
      · refine Or.inr ⟨new.name, ?_, hsymbol⟩
        exact List.mem_map_of_mem (List.mem_append_left context (List.mem_cons_of_mem changed hnew))
    · exact Or.inl (uses_iff_entries.2 ⟨other, List.mem_cons_of_mem entry mem, rule, hrule, hsymbol⟩)

/-- Splicing earlier entries into a rule brings in no symbol that was not there. -/
theorem uses_of_mem_splice (subset : done ⊆ context) (mem : rule ∈ (Entry.splice done entry).rules)
    (h : symbol ∈ rule) : (Grammar.mk (entry :: context) start).Uses symbol := by
  have hall : ∀ rule ∈ (Entry.splice done entry).rules, ∀ symbol ∈ rule,
      (Grammar.mk (entry :: context) start).Uses symbol := by
    apply Entry.forall_rules_splice
      (P := fun _ rule ↦ ∀ symbol ∈ rule, (Grammar.mk (entry :: context) start).Uses symbol)
    · intro _ leader source tail hsource hrule symbol hsymbol
      rcases List.mem_append.1 hsymbol with hsymbol | hsymbol
      · exact hsource symbol hsymbol
      · exact hrule symbol (List.mem_cons_of_mem (.nonterminal leader) hsymbol)
    · intro earlier mem rule hrule symbol hsymbol
      have hmem := List.mem_cons_of_mem entry (subset mem)
      exact uses_iff_entries.2 ⟨earlier, hmem, rule, hrule, hsymbol⟩
    · intro rule hrule symbol hsymbol
      exact uses_iff_entries.2 ⟨entry, List.mem_cons_self, rule, hrule, hsymbol⟩
  exact hall rule mem symbol h

theorem symbol_of_mem_repeated {stop : RepetitionStop} {repeater : Char} {sources : List Rule}
    (mem : rule ∈ stop.repeated repeater sources) (h : symbol ∈ rule) :
    (∃ source ∈ sources, symbol ∈ source) ∨ symbol = .nonterminal repeater := by
  have ⟨source, hsource, hrule⟩ := RepetitionStop.mem_repeated.1 mem
  rcases hrule with hrule | ⟨_, hrule⟩
  · rw [hrule, List.mem_append, List.mem_singleton] at h
    exact h.imp_left fun hsymbol ↦ ⟨source, hsource, hsymbol⟩
  · exact Or.inl ⟨source, hsource, hrule ▸ h⟩

variable {stop : RepetitionStop} {repeater : Char} {state next : Unwinding}

theorem extends_withoutSelf (subset : done ⊆ context) :
    (Grammar.mk (entry :: context) start).Extends
      (Grammar.mk ((Entry.splice done entry).withoutSelf :: context) start) := by
  have hname : (Entry.splice done entry).withoutSelf.name = entry.name := Entry.name_splice
  apply extends_replace [] hname
  intro other hother rule hrule symbol hsymbol
  rw [List.mem_singleton.1 hother] at hrule
  exact Or.inl (uses_of_mem_splice subset (Entry.mem_otherRules.1 hrule).1 hsymbol)

/-- The repeater is the only symbol that comes in. -/
theorem extends_unrolled (subset : done ⊆ context) :
    (Grammar.mk (entry :: context) start).Extends
      (Grammar.mk ((Entry.splice done entry).unrolled stop repeater ::
        (Entry.splice done entry).repetition stop repeater :: context) start) := by
  have hname : ((Entry.splice done entry).unrolled stop repeater).name = entry.name := Entry.name_splice
  apply extends_replace [(Entry.splice done entry).repetition stop repeater] hname
  have hrepeated {sources : List Rule}
      (hsources : ∀ source ∈ sources, ∀ symbol ∈ source,
        (Grammar.mk (entry :: context) start).Uses symbol) :
      ∀ rule ∈ stop.repeated repeater sources, ∀ symbol ∈ rule,
        (Grammar.mk (entry :: context) start).Uses symbol ∨
          ∃ new ∈ [(Entry.splice done entry).repetition stop repeater],
            symbol = .nonterminal new.name := by
    intro rule hrule symbol hsymbol
    rcases symbol_of_mem_repeated hrule hsymbol with ⟨source, hsource, hsymbol⟩ | hsymbol
    · exact Or.inl (hsources source hsource symbol hsymbol)
    · exact Or.inr ⟨_, List.mem_singleton_self _, hsymbol⟩
  rw [List.forall_mem_cons, List.forall_mem_singleton]
  constructor
  · apply hrepeated
    intro source hsource symbol hsymbol
    exact uses_of_mem_splice subset (Entry.mem_otherRules.1 hsource).1 hsymbol
  · intro rule hrule symbol hsymbol
    rcases RepetitionStop.mem_repeaterRules.1 hrule with hrule | ⟨_, hnil⟩
    · refine hrepeated (fun tail htail symbol hsymbol ↦ ?_) rule hrule symbol hsymbol
      have hmem := (Entry.mem_recursiveTails.1 htail).1
      exact uses_of_mem_splice subset hmem (List.mem_cons_of_mem _ hsymbol)
    · rw [hnil] at hsymbol
      cases hsymbol

/-- One step of the removal adds the repeater it names and no other symbol. -/
theorem extends_of_step (step : Unwinding.Step stop state next) (start : Char) :
    (Grammar.mk state.entries start).Extends (Grammar.mk next.entries start) := by
  -- The order of the entries does not matter, so the one that the step changes may come first.
  cases step with
  | @plain done rest repeaters _ entry _ =>
    have subset : done ⊆ done ++ rest ++ repeaters := by simp
    exact ((extends_perm (Unwinding.perm_entries entry)).trans (extends_withoutSelf subset)).trans
      (extends_perm (Unwinding.perm_entries_done _).symm)
  | @unrolled done rest repeaters _ _ entry _ _ =>
    have subset : done ⊆ done ++ rest ++ repeaters := by simp
    exact ((extends_perm (Unwinding.perm_entries entry)).trans (extends_unrolled subset)).trans
      (extends_perm (Unwinding.perm_entries_repeaters _ _).symm)

/-- A run of the removal uses only the old symbols and its repeaters. -/
theorem extends_of_steps (steps : Unwinding.Steps stop state next) (start : Char) :
    (Grammar.mk state.entries start).Extends (Grammar.mk next.entries start) := by
  induction steps with
  | refl => exact .refl _
  | tail _ step ih => exact ih.trans (extends_of_step step start)

theorem extends_ofEntries (nodup : (entries.map (·.name)).Nodup) :
    (Grammar.mk entries start).Extends (ofEntries start entries) := by
  apply extends_of_rules (wellFormed_ofEntries start entries).names_nodup
  · exact fun _ hname ↦ mem_names_ofEntries.2 (Or.inr hname)
  · intro left rule mem symbol hsymbol
    have ⟨entry, hentry, _, hrule⟩ := (mem_rules_ofEntries nodup).1 mem
    exact Or.inl (uses_iff_entries.2 ⟨entry, hentry, rule, hrule, hsymbol⟩)

variable {g unwound : Grammar} {supply rest : NameSupply}

/-- The repeaters are all the removal adds, and the supply that is left has them as taken. -/
theorem turnsInto_withoutLeftRecursion (order : g.InOrder) (taken : g.names ⊆ supply.taken)
    (run : (g.withoutLeftRecursion stop).outcome supply = (.ok unwound, rest)) :
    g.TurnsInto unwound ∧ unwound.names ⊆ rest.taken := by
  have covers := NameSupply.covers_of_closed order.names_nodup order.toClosed taken
  obtain ⟨entries, repeaters, steps, keeps, hunwound⟩ :=
    exists_keeps_of_withoutLeftRecursion order.names_nodup covers run
  have hsteps := extends_of_steps steps g.start
  have registered := keeps.registered
  have hlanguage := language_withoutLeftRecursion order.names_nodup covers run covers.start_mem
  have hstart := start_withoutLeftRecursion run
  simp only [Unwinding.entries, List.append_nil, List.nil_append] at hsteps registered
  subst hunwound
  constructor
  · apply (hsteps.trans (extends_ofEntries registered.nodup)).turnsInto order
    · exact wellFormed_ofEntries _ _
    · exact fronted_ofEntries _ _
    · intro word
      rw [accepts_iff, accepts_iff, hstart, hlanguage]
  · intro name hname
    rcases mem_names_ofEntries.1 hname with hname | hname
    · exact hname ▸ keeps.taken_subset covers.start_mem
    · obtain ⟨entry, mem, hentry⟩ := List.mem_map.1 hname
      exact hentry ▸ registered.name_mem entry mem

/-! ## Chomsky normal form -/

variable {standIns links : List Char} {policy : EmptyWordPolicy} {n : Normalization}

theorem extends_wrapStart (closed : g.Closed) (nodup : g.names.Nodup) (hstart : start ∉ g.names) :
    g.Extends (g.wrapStart start) := by
  have subset : g.names ⊆ (g.wrapStart start).names := by
    intro name hname
    rw [wrapStart, mem_names_ofEntries]
    exact Or.inr (List.mem_cons_of_mem start hname)
  apply extends_of_rules (wellFormed_wrapStart g start).names_nodup subset
  intro left rule mem symbol hsymbol
  rcases (mem_rules_wrapStart nodup hstart).1 mem with ⟨_, hrule⟩ | mem
  · rw [hrule, List.mem_singleton] at hsymbol
    exact Or.inr ⟨g.start, subset closed.start_mem, hsymbol⟩
  · exact Or.inl (uses_of_mem_rules nodup mem hsymbol)

theorem turnsInto_freshStart (order : g.InOrder) (taken : g.names ⊆ supply.taken)
    {started : Grammar} (run : (g.freshStart policy).outcome supply = (.ok started, rest)) :
    g.TurnsInto started ∧ started.names ⊆ rest.taken := by
  have covers := NameSupply.covers_of_closed order.names_nodup order.toClosed taken
  rcases freshStart_cases run with ⟨_, start, drawn, rfl⟩ | ⟨_, rfl, rfl⟩
  · have hstart := covers.notMem_names drawn
    refine ⟨?_, (covers_wrapStart order.names_nodup covers drawn).names_subset⟩
    apply (extends_wrapStart order.toClosed order.names_nodup hstart).turnsInto order
    · exact wellFormed_wrapStart g start
    · exact fronted_ofEntries _ _
    · exact fun word ↦ accepts_wrapStart order.names_nodup covers drawn
  · exact ⟨.refl order, taken⟩

theorem extends_isolatedBy (nodup : g.names.Nodup) : g.Extends (g.isolatedBy standIns) := by
  apply extends_of_rules (wellFormed_rebuild g _).names_nodup
  · exact fun _ hname ↦ mem_names_rebuild.2 (Or.inr (Or.inl hname))
  · intro left rule mem symbol hsymbol
    rcases (mem_rules_isolatedBy nodup).1 mem with ⟨source, hsource, hrule⟩ | ⟨c, hc, hrule⟩
    · subst hrule
      rcases Rule.mem_replaceTerminals hsymbol with hold | ⟨c, standIn, hstandIn, hsymbol⟩
      · exact Or.inl (uses_of_mem_rules nodup hsource hold)
      · have hrule : [.terminal c] ∈ (g.isolatedBy standIns).rules standIn :=
          (mem_rules_isolatedBy nodup).2 (Or.inr ⟨c, hstandIn, rfl⟩)
        exact Or.inr ⟨standIn, mem_names_of_mem_rules hrule, hsymbol⟩
    · rw [hrule, List.mem_singleton] at hsymbol
      have hmisplaced := mem_distinct.1 (List.of_mem_zip hc).1
      have ⟨p, hp, hmem⟩ := List.mem_flatMap.1 hmisplaced
      exact Or.inl ⟨p, hp, hsymbol ▸ Rule.mem_of_mem_misplacedTerminals hmem⟩

theorem turnsInto_isolateTerminals (order : g.InOrder) (taken : g.names ⊆ supply.taken)
    {isolated : Grammar} (run : g.isolateTerminals.outcome supply = (.ok isolated, rest)) :
    g.TurnsInto isolated ∧ isolated.names ⊆ rest.taken := by
  have covers := NameSupply.covers_of_closed order.names_nodup order.toClosed taken
  have ⟨standIns, hlength, drawn, hisolated⟩ := exists_standIns run
  subst hisolated
  refine ⟨?_, (covers_isolatedBy order.names_nodup covers drawn).names_subset⟩
  apply (extends_isolatedBy order.names_nodup).turnsInto order
  · exact wellFormed_rebuild g _
  · exact fronted_rebuild g _
  · intro word
    rw [accepts_iff, accepts_iff, start_isolatedBy,
      language_isolatedBy order.names_nodup covers drawn hlength (covers.start_notMem drawn)]

theorem extends_splitBy (nodup : g.names.Nodup) : g.Extends (g.splitBy links) := by
  apply extends_of_rules (wellFormed_rebuild g _).names_nodup
  · exact fun _ hname ↦ mem_names_rebuild.2 (Or.inr (Or.inl hname))
  · intro left rule mem symbol hsymbol
    have ⟨dealt, hdealt, hrule⟩ := mem_rules_splitBy.1 mem
    have hsymbols := @Rule.mem_splitChain dealt.1.right dealt.2 symbol
    have hsource : symbol ∈ dealt.1.right ∨
        ∃ p ∈ (Rule.splitChain dealt.1.right dealt.2).2, symbol = .nonterminal p.left := by
      rcases hrule with ⟨_, hrule⟩ | hrule
      · exact hsymbols.1 (hrule ▸ hsymbol)
      · exact (hsymbols.2 _ hrule).2 hsymbol
    rcases hsource with hold | ⟨p, hp, hsymbol⟩
    · exact Or.inl (uses_of_mem_rules nodup (mem_rules_of_mem_dealLinks nodup hdealt) hold)
    · have hlink : p.right ∈ (g.splitBy links).rules p.left :=
        mem_rules_splitBy.2 ⟨dealt, hdealt, Or.inr hp⟩
      exact Or.inr ⟨p.left, mem_names_of_mem_rules hlink, hsymbol⟩

theorem names_splitBy_subset (hstart : g.start ∈ g.names) :
    (g.splitBy links).names ⊆ g.names ++ links := by
  have hold : g.names ⊆ g.names ++ links := List.subset_append_left _ _
  apply names_rebuild_subset (hold hstart) hold
  intro p hp
  rw [splitAll_eq, List.mem_append, List.mem_map, List.mem_flatMap] at hp
  rcases hp with ⟨dealt, hdealt, hp⟩ | ⟨dealt, hdealt, hp⟩
  · have hleft : dealt.1.left ∈ g.names := left_mem_names (mem_of_mem_dealLinks hdealt).1
    rw [← hp]
    exact hold hleft
  · have hleft := ((@Rule.mem_splitChain _ _ (.nonterminal p.left)).2 p hp).1
    exact List.mem_append_right _ ((mem_of_mem_dealLinks hdealt).2 hleft)

theorem turnsInto_splitLongRules (order : g.InOrder) (taken : g.names ⊆ supply.taken)
    {result : Grammar} (run : g.splitLongRules.outcome supply = (.ok result, rest)) :
    g.TurnsInto result ∧ result.names ⊆ rest.taken := by
  have covers := NameSupply.covers_of_closed order.names_nodup order.toClosed taken
  have ⟨links, hlength, drawn, hresult⟩ := exists_links run
  subst hresult
  constructor
  · apply (extends_splitBy order.names_nodup).turnsInto order
    · exact wellFormed_rebuild g _
    · exact fronted_rebuild g _
    · intro word
      rw [accepts_iff, accepts_iff, start_splitBy,
        language_splitBy order.names_nodup covers drawn (covers.start_notMem drawn)]
  · intro name hname
    rcases List.mem_append.1 (names_splitBy_subset order.start_mem hname) with hname | hname
    · exact (drawn.mem_taken name).2 (Or.inr (taken hname))
    · exact (drawn.mem_taken name).2 (Or.inl hname)

theorem names_cleaned_subset_taken (order : g.InOrder) (taken : g.names ⊆ supply.taken)
    (policy : EmptyWordPolicy) : (g.cleaned policy).names ⊆ supply.taken := by
  intro name hname
  rcases List.mem_cons.1 (names_cleaned_subset hname) with hname | hname
  · exact hname ▸ taken order.start_mem
  · exact taken hname

/-- The stages compose: the Chomsky normal form can take the place of the grammar. -/
theorem turnsInto_toChomsky (order : g.InOrder) (taken : g.names ⊆ supply.taken)
    (run : (g.toChomsky policy).outcome supply = (.ok n, rest)) :
    g.TurnsInto n.grammar ∧ n.grammar.names ⊆ rest.taken := by
  have ⟨started, before, hstart, run⟩ := Naming.outcome_bind_eq_ok.1 run
  have ⟨isolated, between, hisolate, run⟩ := Naming.outcome_bind_eq_ok.1 run
  have ⟨result, after, hsplit, run⟩ := Naming.outcome_bind_eq_ok.1 run
  have ⟨hn, hrest⟩ := Naming.outcome_pure_eq_ok.1 run
  subst hn hrest
  have ⟨hstarted, taken⟩ := turnsInto_freshStart order taken hstart
  have hcleaned := turnsInto_cleaned hstarted.inOrder policy
  have taken := names_cleaned_subset_taken hstarted.inOrder taken policy
  have ⟨hisolated, taken⟩ := turnsInto_isolateTerminals hcleaned.inOrder taken hisolate
  have ⟨hresult, taken⟩ := turnsInto_splitLongRules hisolated.inOrder taken hsplit
  exact ⟨((hstarted.trans hcleaned).trans hisolated).trans hresult, taken⟩

/-! ## Greibach normal form -/

variable {led : List Char}

theorem wellFormed_expandLeaders (wf : g.WellFormed) : (g.expandLeaders led).WellFormed where
  names_nodup := by
    rw [names_expandLeaders]
    exact wf.names_nodup
  rules_nodup := by
    intro entry mem
    have ⟨before, hbefore, hentry⟩ := List.mem_map.1 mem
    rw [← hentry]
    split
    · exact wf.rules_nodup before hbefore
    · exact nodup_distinct _

theorem extends_expandLeaders (wf : g.WellFormed) : g.Extends (g.expandLeaders led) := by
  have nodup := wf.names_nodup
  apply extends_of_rules (wellFormed_expandLeaders wf).names_nodup
  · rw [names_expandLeaders]
    exact List.Subset.refl _
  · intro left rule mem symbol hsymbol
    left
    rcases mem_rules_expandLeaders.1 mem with
      ⟨mem, _⟩ | ⟨_, leader, _, tail, mem, source, hsource, hrule⟩
    · exact uses_of_mem_rules nodup mem hsymbol
    · rw [hrule, List.mem_append] at hsymbol
      rcases hsymbol with hsymbol | hsymbol
      · exact uses_of_mem_rules nodup hsource hsymbol
      · exact uses_of_mem_rules nodup mem (List.mem_cons_of_mem _ hsymbol)

theorem turnsInto_expandLeaders (order : g.InOrder) : g.TurnsInto (g.expandLeaders led) := by
  apply (extends_expandLeaders order.toWellFormed).turnsInto order
  · exact wellFormed_expandLeaders order.toWellFormed
  · rw [Fronted, names_expandLeaders]
    exact order.fronted
  · intro word
    rw [accepts_iff, accepts_iff, language_expandLeaders]
    rfl

/-- Back substitution changes rules only, never the names. -/
theorem turnsInto_backSubstitute (order : g.InOrder) :
    g.TurnsInto g.backSubstitute ∧ g.backSubstitute.names = g.names := by
  apply backSubstitutePasses_induction (P := fun h ↦ g.TurnsInto h ∧ h.names = g.names)
  · intro h ⟨hturns, hnames⟩
    exact ⟨hturns.trans (turnsInto_expandLeaders hturns.inOrder), by rw [names_expandLeaders, hnames]⟩
  · exact ⟨.refl order, rfl⟩

/-- The Greibach normal form can take the place of the grammar. -/
theorem turnsInto_toGreibach (order : g.InOrder) (taken : g.names ⊆ supply.taken)
    (run : g.toGreibach.outcome supply = (.ok n, rest)) :
    g.TurnsInto n.grammar ∧ n.grammar.names ⊆ rest.taken := by
  have ⟨unwound, hunwound, hgrammar, _⟩ := exists_unwound run
  have hcleaned := turnsInto_cleaned order .drop
  have taken := names_cleaned_subset_taken order taken .drop
  have ⟨hturns, taken⟩ := turnsInto_withoutLeftRecursion hcleaned.inOrder taken hunwound
  have ⟨hback, hnames⟩ := turnsInto_backSubstitute hturns.inOrder
  rw [hgrammar, hnames]
  exact ⟨(hcleaned.trans hturns).trans hback, taken⟩

end Grammar

end GrammarForms
