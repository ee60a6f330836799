import GrammarForms.Proofs.LeftRecursion

/-!
# Leaders after the Removal of Left Recursion

Without empty rules and unit rules the removal of left recursion leaves an order behind.  A treated entry
is led only by entries that come after it, and a repeater only by entries that were there at the start.
The second part needs an invariant: whatever is spliced in front of it, a rule that a nonterminal leads
goes on with a terminal or with one of those entries, so that a repeater never leads a rule.  Nothing
leads back to itself then.
-/

namespace GrammarForms

namespace Rule

variable {names : List Char} {rule : Rule}

/-- What follows a leader begins with a terminal or with one of the names as well. -/
structure KeepsLed (names : List Char) (rule : Rule) : Prop extends LedWithin names rule where
  tail_led : leader? rule ≠ none → LedWithin names rule.tail

/-- Appending to a rule does not change what begins it. -/
theorem KeepsLed.append (keeps : KeepsLed names rule) (rest : Rule) :
    KeepsLed names (rule ++ rest) where
  toLedWithin := keeps.toLedWithin.append rest
  tail_led := by
    intro h
    rw [leader?_append keeps.ne_nil] at h
    rw [List.tail_append_of_ne_nil keeps.ne_nil]
    exact (keeps.tail_led h).append rest

theorem keepsLed_of_subset (hne : rule ≠ []) (hunit : soleNonterminal? rule = none)
    (subset : nonterminals rule ⊆ names) : KeepsLed names rule := by
  refine ⟨⟨hne, fun name h ↦ subset (mem_nonterminals_of_leader? h)⟩, fun h ↦ ?_⟩
  have ⟨name, hname⟩ := Option.ne_none_iff_exists'.1 h
  have ⟨tail, hrule⟩ := leader?_eq_some.1 hname
  subst hrule
  constructor
  · intro htail
    rw [List.tail_cons] at htail
    rw [htail] at hunit
    cases hunit
  · intro other hother
    exact subset (mem_nonterminals_cons_of_mem _ (mem_nonterminals_of_leader? hother))

end Rule

/-! ## Descending entries -/

/-- No entry is led by itself or by one that comes before it. -/
structure Descending (entries : List Entry) : Prop where
  not_earlier : entries.Pairwise fun earlier later ↦
    ∀ rule ∈ later.rules, Rule.leader? rule ≠ some earlier.name
  not_self : ∀ entry ∈ entries, ∀ rule ∈ entry.rules, Rule.leader? rule ≠ some entry.name

namespace Descending

variable {done : List Entry} {entry : Entry}

theorem nil : Descending [] :=
  ⟨List.Pairwise.nil, by simp⟩

/-- An entry can be put at the end once neither it nor an earlier one leads it. -/
theorem concat (descending : Descending done)
    (not_done : ∀ earlier ∈ done, ∀ rule ∈ entry.rules, Rule.leader? rule ≠ some earlier.name)
    (not_self : ∀ rule ∈ entry.rules, Rule.leader? rule ≠ some entry.name) :
    Descending (done ++ [entry]) where
  not_earlier := by
    apply List.pairwise_append.2
    refine ⟨descending.not_earlier, List.pairwise_singleton _ entry, ?_⟩
    intro earlier mem later hlater
    rw [List.mem_singleton.1 hlater]
    exact not_done earlier mem
  not_self := by
    intro other mem
    rcases List.mem_append.1 mem with mem | mem
    · exact descending.not_self other mem
    · rw [List.mem_singleton.1 mem]
      exact not_self

theorem of_append {others : List Entry} (descending : Descending (done ++ others)) :
    Descending done :=
  ⟨(List.pairwise_append.1 descending.not_earlier).1, fun entry mem ↦
    descending.not_self entry (List.mem_append_left others mem)⟩

/-- An entry is led by entries after it. -/
theorem mem_of_leader {before after : List Entry} (descending : Descending (before ++ entry :: after))
    {rule : Rule} (hrule : rule ∈ entry.rules) {other : Entry} (mem : other ∈ before ++ entry :: after)
    (hleader : Rule.leader? rule = some other.name) : other ∈ after := by
  rcases List.mem_append.1 mem with hbefore | hother
  · have hpairwise := (List.pairwise_append.1 descending.not_earlier).2.2
    exact absurd hleader (hpairwise other hbefore entry List.mem_cons_self rule hrule)
  rcases List.mem_cons.1 hother with e | hafter
  · rw [e] at mem hleader
    exact absurd hleader (descending.not_self entry mem rule hrule)
  · exact hafter

/-- What is spliced in is led by later entries only, so one pass through the entries in their order
is enough. -/
theorem leader?_splice_ne (descending : Descending done)
    (hne : ∀ earlier ∈ done, ∀ rule ∈ earlier.rules, rule ≠ []) :
    ∀ earlier ∈ done, ∀ rule ∈ (Entry.splice done entry).rules,
      Rule.leader? rule ≠ some earlier.name := by
  induction done using List.reverseRecOn with
  | nil => simp
  | append_singleton init last ih =>
    have hinit := ih descending.of_append fun earlier mem ↦
      hne earlier (List.mem_append_left [last] mem)
    have hlater := (List.pairwise_append.1 descending.not_earlier).2.2
    have last_mem : last ∈ init ++ [last] := List.mem_append_right init List.mem_cons_self
    intro earlier mem rule hrule
    rw [Entry.splice, List.foldl_concat] at hrule
    rcases Entry.mem_rules_spliceLeading.1 hrule with ⟨hrule, hlast⟩ | ⟨tail, _, source, hsource, h⟩
    · rcases List.mem_append.1 mem with mem | mem
      · exact hinit earlier mem rule hrule
      · rwa [List.mem_singleton.1 mem]
    · rw [h, Rule.leader?_append (hne last last_mem source hsource)]
      rcases List.mem_append.1 mem with mem | mem
      · exact hlater earlier mem last List.mem_cons_self source hsource
      · rw [List.mem_singleton.1 mem]
        exact descending.not_self last last_mem source hsource

end Descending

/-! ## What a step of the removal does -/

theorem RepetitionStop.exists_of_mem_repeated {stop : RepetitionStop} {repeater : Char}
    {sources : List Rule} {rule : Rule} (mem : rule ∈ stop.repeated repeater sources) :
    ∃ source ∈ sources, rule = source ∨ rule = source ++ [.nonterminal repeater] := by
  have ⟨source, hsource, hrule⟩ := mem_repeated.1 mem
  rcases hrule with hrule | ⟨_, hrule⟩
  · exact ⟨source, hsource, Or.inr hrule⟩
  · exact ⟨source, hsource, Or.inl hrule⟩

namespace Unwinding

variable {names : List Char} {stop : RepetitionStop} {supply : NameSupply} {state next : Unwinding}

/-- The next entry is done with other rules than those it leads itself, and a new repeater may follow
them. -/
theorem Step.exists_treated (step : Step stop state next) :
    ∃ entry rest treated, state.rest = entry :: rest ∧ next.rest = rest ∧
      next.done = state.done ++ [treated] ∧ treated.name = entry.name ∧
      ∀ rule ∈ treated.rules, ∃ source ∈ (Entry.splice state.done entry).otherRules,
        rule = source ∨ ∃ repeater ∈ next.repeaters, rule = source ++ [.nonterminal repeater.name] := by
  cases step with
  | @plain done rest repeaters supply entry h =>
    refine ⟨entry, rest, (Entry.splice done entry).withoutSelf, rfl, rfl, rfl, Entry.name_splice, ?_⟩
    exact fun rule hrule ↦ ⟨rule, hrule, Or.inl rfl⟩
  | @unrolled done rest repeaters supply supply' entry repeater drawn =>
    refine ⟨entry, rest, (Entry.splice done entry).unrolled stop repeater, rfl, rfl, rfl,
      Entry.name_splice, fun rule hrule ↦ ?_⟩
    have ⟨source, hsource, h⟩ := RepetitionStop.exists_of_mem_repeated hrule
    refine ⟨source, hsource, h.imp_right fun h ↦ ?_⟩
    exact ⟨_, List.mem_append_right repeaters (List.mem_singleton_self _), h⟩

/-- A new repeater repeats the recursive tails of the next entry. -/
theorem Step.repeaters_cases (step : Step stop state next) :
    next.repeaters = state.repeaters ∨ ∃ entry rest repeater, state.rest = entry :: rest ∧
      next.repeaters = state.repeaters ++ [(Entry.splice state.done entry).repetition stop repeater] := by
  cases step with
  | plain h => exact Or.inl rfl
  | @unrolled done rest repeaters supply supply' entry repeater drawn =>
    exact Or.inr ⟨entry, rest, repeater, rfl, rfl⟩

/-- Repeaters stay once they are there. -/
theorem Step.repeaters_subset (step : Step stop state next) : state.repeaters ⊆ next.repeaters := by
  rcases step.repeaters_cases with h | ⟨_, _, _, _, h⟩
  · exact h ▸ List.Subset.refl _
  · exact h ▸ List.subset_append_left _ _

/-- A step treats entries one after another and neither renames nor reorders them. -/
theorem Step.names_eq (step : Step stop state next) :
    (next.done ++ next.rest).map (·.name) = (state.done ++ state.rest).map (·.name) := by
  have ⟨entry, rest, treated, hrest, hrest', hdone, hname, _⟩ := step.exists_treated
  rw [hrest, hrest', hdone]
  simp [hname]

theorem forall_rules_splice_next {P : Char → Rule → Prop} {entry : Entry} {rest : List Entry}
    (replace : ∀ name earlier source tail, P earlier source → P name (.nonterminal earlier :: tail) →
      P name (source ++ tail))
    (h : ∀ entry ∈ state.done ++ state.rest, ∀ rule ∈ entry.rules, P entry.name rule)
    (hrest : state.rest = entry :: rest) :
    ∀ rule ∈ (Entry.splice state.done entry).rules, P entry.name rule := by
  apply Entry.forall_rules_splice replace
  · exact fun earlier mem ↦ h earlier (List.mem_append_left _ mem)
  · exact h entry (hrest ▸ List.mem_append_right _ List.mem_cons_self)

/-- What holds of all rules still does if it survives the replacement of a leader and a repeater at the
end. -/
theorem Step.forall_rules {P : Char → Rule → Prop}
    (replace : ∀ name earlier source tail, P earlier source → P name (.nonterminal earlier :: tail) →
      P name (source ++ tail))
    (repeated : ∀ name source, ∀ repeater ∈ next.repeaters, P name source →
      P name (source ++ [.nonterminal repeater.name]))
    (step : Step stop state next)
    (h : ∀ entry ∈ state.done ++ state.rest, ∀ rule ∈ entry.rules, P entry.name rule) :
    ∀ entry ∈ next.done ++ next.rest, ∀ rule ∈ entry.rules, P entry.name rule := by
  have ⟨entry, rest, treated, hrest, hrest', hdone, hname, hrules⟩ := step.exists_treated
  have hspliced := forall_rules_splice_next replace h hrest
  rw [hrest] at h
  rw [hrest', hdone, ← List.append_cons]
  intro other mem rule hrule
  rw [List.mem_append, List.mem_cons] at mem
  rcases mem with mem | e | mem
  · exact h other (List.mem_append_left _ mem) rule hrule
  · subst e
    have ⟨source, hsource, hsourced⟩ := hrules rule hrule
    have hP := hspliced source (Entry.mem_otherRules.1 hsource).1
    rw [hname]
    rcases hsourced with e | ⟨repeater, hrepeater, e⟩
    · exact e ▸ hP
    · exact e ▸ repeated entry.name source repeater hrepeater hP
  · exact h other (List.mem_append_right state.done (List.mem_cons_of_mem entry mem)) rule hrule

/-- The entry that a step treats is led by no earlier one, so the treated entries stay in descending
order. -/
theorem Step.descending (step : Step stop state next) (descending : Descending state.done)
    (hne : ∀ entry ∈ state.done ++ state.rest, ∀ rule ∈ entry.rules, rule ≠ []) :
    Descending next.done := by
  have ⟨entry, rest, treated, hrest, _, hdone, hname, hrules⟩ := step.exists_treated
  have hspliced : ∀ rule ∈ (Entry.splice state.done entry).rules, rule ≠ [] :=
    forall_rules_splice_next (P := fun _ rule ↦ rule ≠ [])
      (fun _ _ source tail hsource _ ↦ List.append_ne_nil_of_left_ne_nil hsource tail) hne hrest
  -- A repeater at the end of a rule does not change what leads it.
  have hleader (rule : Rule) (hrule : rule ∈ treated.rules) :
      ∃ source ∈ (Entry.splice state.done entry).otherRules,
        Rule.leader? rule = Rule.leader? source := by
    have ⟨source, hsource, h⟩ := hrules rule hrule
    refine ⟨source, hsource, ?_⟩
    rcases h with e | ⟨repeater, _, e⟩
    · rw [e]
    · rw [e, Rule.leader?_append (hspliced source (Entry.mem_otherRules.1 hsource).1)]
  rw [hdone]
  apply descending.concat
  · intro earlier mem rule hrule
    have ⟨source, hsource, h⟩ := hleader rule hrule
    have hdone_ne : ∀ other ∈ state.done, ∀ rule ∈ other.rules, rule ≠ [] := fun other mem ↦
      hne other (List.mem_append_left _ mem)
    rw [h]
    exact descending.leader?_splice_ne hdone_ne earlier mem source (Entry.mem_otherRules.1 hsource).1
  · intro rule hrule
    have ⟨source, hsource, h⟩ := hleader rule hrule
    have hself := (Entry.mem_otherRules.1 hsource).2
    rw [Entry.name_splice] at hself
    rwa [h, hname]

/-! ## The invariant of the removal -/

structure Descends (names : List Char) (state : Unwinding) : Prop where
  names_eq : (state.done ++ state.rest).map (·.name) = names
  keeps_led : ∀ entry ∈ state.done ++ state.rest, ∀ rule ∈ entry.rules, Rule.KeepsLed names rule
  repeaters_led : ∀ entry ∈ state.repeaters, ∀ rule ∈ entry.rules, Rule.LedWithin names rule
  descending : Descending state.done

theorem descends_of_step (step : Step .withoutRepeater state next)
    (descends : Descends names state) : Descends names next where
  names_eq := step.names_eq.trans descends.names_eq
  keeps_led := by
    apply step.forall_rules (P := fun _ rule ↦ Rule.KeepsLed names rule)
    · exact fun _ _ source tail hsource _ ↦ hsource.append tail
    · exact fun _ source repeater _ hsource ↦ hsource.append _
    · exact descends.keeps_led
  repeaters_led := by
    rcases step.repeaters_cases with h | ⟨entry, rest, repeater, hrest, h⟩
    · exact h ▸ descends.repeaters_led
    · have hspliced : ∀ rule ∈ (Entry.splice state.done entry).rules, Rule.KeepsLed names rule :=
        forall_rules_splice_next (P := fun _ rule ↦ Rule.KeepsLed names rule)
          (fun _ _ source tail hsource _ ↦ hsource.append tail) descends.keeps_led hrest
      rw [h]
      intro other mem rule hrule
      rcases List.mem_append.1 mem with mem | mem
      · exact descends.repeaters_led other mem rule hrule
      · rw [List.mem_singleton.1 mem] at hrule
        simp only [Entry.repetition, RepetitionStop.repeaterRules] at hrule
        obtain ⟨tail, htail, h⟩ := RepetitionStop.exists_of_mem_repeated hrule
        -- A tail follows a leader, and of such tails the invariant says what begins them.
        have hkeeps := hspliced _ (Entry.mem_recursiveTails.1 htail).1
        have hled : Rule.LedWithin names tail := hkeeps.tail_led (by simp)
        rcases h with e | e
        · exact e ▸ hled
        · exact e ▸ hled.append _
  descending := step.descending descends.descending fun entry mem rule hrule ↦
    (descends.keeps_led entry mem rule hrule).ne_nil

/-- The invariant holds after any number of steps. -/
theorem descends_of_steps (steps : Steps .withoutRepeater state next)
    (descends : Descends names state) : Descends names next := by
  induction steps with
  | refl => exact descends
  | tail _ step ih => exact descends_of_step step ih

end Unwinding

/-! ## The result -/

namespace Grammar

variable {g unwound : Grammar} {entries : List Entry} {supply rest : NameSupply}

/-- Descending entries that are led by each other only are accessible, the last one first. -/
theorem acc_leads_of_descending (descending : Descending entries)
    (hrules : ∀ entry ∈ entries, ∀ rule ∈ g.rules entry.name, rule ∈ entry.rules)
    (hled : ∀ entry ∈ entries, ∀ rule ∈ entry.rules, Rule.LedWithin (entries.map (·.name)) rule) :
    ∀ entry ∈ entries, Acc g.Leads entry.name := by
  suffices ∀ after before, entries = before ++ after → ∀ entry ∈ after, Acc g.Leads entry.name from
    this entries [] rfl
  intro after
  induction after with
  | nil => simp
  | cons first rest ih =>
    intro before hentries
    have hrest : ∀ entry ∈ rest, Acc g.Leads entry.name := by
      apply ih (before ++ [first])
      rw [hentries, List.append_cons]
    have hfirst : first ∈ entries := hentries ▸ List.mem_append_right before List.mem_cons_self
    rw [List.forall_mem_cons]
    refine ⟨⟨first.name, fun leader hleads ↦ ?_⟩, hrest⟩
    have ⟨rule, hrule, hleader⟩ := hleads
    have hrule := hrules first hfirst rule hrule
    have hmem := (hled first hfirst rule hrule).leader_mem leader hleader
    have ⟨other, hother, hname⟩ := List.mem_map.1 hmem
    subst hname
    rw [hentries] at hother descending
    exact hrest other (descending.mem_of_leader hrule hother hleader)

theorem ledWithin_of_descends {names : List Char} {repeaters : List Entry} {start name : Char}
    {rule : Rule} (nodup : ((entries ++ repeaters).map (·.name)).Nodup)
    (descends : Unwinding.Descends names ⟨entries, [], repeaters, supply⟩)
    (mem : rule ∈ (ofEntries start (entries ++ repeaters)).rules name) : Rule.LedWithin names rule := by
  have ⟨entry, hentry, _, hrule⟩ := (mem_rules_ofEntries nodup).1 mem
  rcases List.mem_append.1 hentry with hentry | hentry
  · exact (descends.keeps_led entry (List.mem_append_left [] hentry) rule hrule).toLedWithin
  · exact descends.repeaters_led entry hentry rule hrule

/-- At the end of a run the invariant gives what back substitution needs. -/
theorem grounded_of_descends {names : List Char} {repeaters : List Entry} {start : Char}
    (nodup : ((entries ++ repeaters).map (·.name)).Nodup)
    (descends : Unwinding.Descends names ⟨entries, [], repeaters, supply⟩) :
    (ofEntries start (entries ++ repeaters)).Grounded := by
  have hnames : entries.map (·.name) = names := by
    rw [← descends.names_eq, List.append_nil]
  have hled (name : Char) (rule : Rule)
      (mem : rule ∈ (ofEntries start (entries ++ repeaters)).rules name) :
      Rule.LedWithin (entries.map (·.name)) rule :=
    hnames ▸ ledWithin_of_descends nodup descends mem
  have hrules (entry : Entry) (mem : entry ∈ entries) {rule : Rule} :
      rule ∈ (ofEntries start (entries ++ repeaters)).rules entry.name ↔ rule ∈ entry.rules :=
    mem_rules_ofEntries_of_mem nodup (List.mem_append_left repeaters mem)
  have hacc := acc_leads_of_descending descends.descending (fun entry mem _ ↦ (hrules entry mem).1)
    (fun entry mem rule hrule ↦ hled entry.name rule ((hrules entry mem).2 hrule))
  refine ⟨(wellFormed_ofEntries start _).names_nodup, fun name rule mem ↦ ?_, ⟨fun name ↦ ?_⟩⟩
  · apply (hled name rule mem).mono
    intro leader hleader
    rw [mem_names_ofEntries, List.map_append, List.mem_append]
    exact Or.inr (Or.inl hleader)
  · constructor
    intro leader ⟨rule, mem, hleader⟩
    have hmem := (hled name rule mem).leader_mem leader hleader
    have ⟨entry, hentry, hname⟩ := List.mem_map.1 hmem
    exact hname ▸ hacc entry hentry

/-- Rules that go on as they begin leave nothing that leads back to itself. -/
theorem grounded_withoutLeftRecursion (nodup : g.names.Nodup) (covers : supply.Covers g)
    (keeps : ∀ name, ∀ rule ∈ g.rules name, Rule.KeepsLed g.names rule)
    (run : (g.withoutLeftRecursion .withoutRepeater).outcome supply = (.ok unwound, rest)) :
    unwound.Grounded := by
  have ⟨entries, repeaters, steps, hunwound⟩ := exists_steps_of_withoutLeftRecursion run
  have hregistered : Registered supply.taken ([] ++ g.entries ++ []) := by
    rw [List.append_nil]
    exact registered_of_covers nodup covers
  have hkeeps : Unwinding.Keeps _ _ g.start := Unwinding.keeps_of_steps steps hregistered
  have hnodup := hkeeps.registered.nodup
  have hdescends : Unwinding.Descends g.names ⟨[], g.entries, [], supply⟩ := by
    refine ⟨rfl, fun entry mem rule hrule ↦ ?_, by simp, Descending.nil⟩
    rw [← rules_of_mem nodup mem] at hrule
    exact keeps entry.name rule hrule
  simp only [Unwinding.entries, List.append_nil] at hnodup
  rw [hunwound]
  exact grounded_of_descends hnodup (Unwinding.descends_of_steps steps hdescends)

end Grammar

end GrammarForms
