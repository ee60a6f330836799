import GrammarForms.Proofs.Naming
import GrammarForms.Proofs.Splicing

/-!
# Removal of Left Recursion

The removal is a run of steps, one for each entry.  In between, the entries that are done, those that
are still to come and the repeaters together form a grammar.  All their names differ and all that is in
sight is taken, so a repeater is new to that grammar, and a step keeps the language of every nonterminal
that was taken before it.  In the end every nonterminal of the grammar generates the words it generated
before.
-/

namespace GrammarForms

/-- A removal of left recursion under way. -/
structure Unwinding where
  done : List Entry
  rest : List Entry
  repeaters : List Entry
  supply : NameSupply

namespace Unwinding

variable {stop : RepetitionStop} {state next : Unwinding} {start name : Char}
variable {done rest repeaters : List Entry} {supply supply' : NameSupply}

def entries (state : Unwinding) : List Entry :=
  state.done ++ state.rest ++ state.repeaters

/-- The next entry is treated, and it needs no repeater or it gets one. -/
inductive Step (stop : RepetitionStop) : Unwinding → Unwinding → Prop where
  | plain {done rest repeaters : List Entry} {supply : NameSupply} {entry : Entry}
      (h : (Entry.splice done entry).recursiveTails = []) :
      Step stop ⟨done, entry :: rest, repeaters, supply⟩
        ⟨done ++ [(Entry.splice done entry).withoutSelf], rest, repeaters, supply⟩
  | unrolled {done rest repeaters : List Entry} {supply supply' : NameSupply} {entry : Entry}
      {repeater : Char} (drawn : supply.Drawn [repeater] supply') :
      Step stop ⟨done, entry :: rest, repeaters, supply⟩
        ⟨done ++ [(Entry.splice done entry).unrolled stop repeater], rest,
          repeaters ++ [(Entry.splice done entry).repetition stop repeater], supply'⟩

abbrev Steps (stop : RepetitionStop) : Unwinding → Unwinding → Prop :=
  Relation.ReflTransGen (Step stop)

/-- A removal that succeeds takes one step for each entry. -/
theorem steps_of_unwind {unwound : Unwound}
    (run : (unwind stop done rest).outcome supply = (.ok unwound, supply')) :
    Steps stop ⟨done, rest, repeaters, supply⟩
      ⟨unwound.entries, [], repeaters ++ unwound.repeaters, supply'⟩ := by
  induction rest generalizing done repeaters supply unwound with
  | nil =>
    have ⟨hunwound, hsupply⟩ := Naming.outcome_pure_eq_ok.1 run
    rw [← hunwound, ← hsupply, List.append_nil]
  | cons entry rest ih =>
    rw [unwind] at run
    split at run
    · rename_i h
      exact (ih run).head (.plain (List.isEmpty_iff.1 h))
    · have ⟨repeater, middle, hfresh, run⟩ := Naming.outcome_bind_eq_ok.1 run
      have ⟨inner, last, hinner, run⟩ := Naming.outcome_bind_eq_ok.1 run
      have ⟨hunwound, hlast⟩ := Naming.outcome_pure_eq_ok.1 run
      subst hunwound hlast
      let repetition := (Entry.splice done entry).repetition stop repeater
      have hsteps := @ih _ (repeaters ++ [repetition]) _ _ hinner
      rw [List.append_assoc] at hsteps
      exact hsteps.head (.unrolled (NameSupply.drawn_of_fresh hfresh))

/-! ## Languages along the way -/

/-- The names that were taken stay taken, and their languages stay the same. -/
structure Keeps (state next : Unwinding) (start : Char) : Prop where
  registered : Registered next.supply.taken next.entries
  taken_subset : state.supply.taken ⊆ next.supply.taken
  language_eq : ∀ name ∈ state.supply.taken,
    (Grammar.mk next.entries start).language name = (Grammar.mk state.entries start).language name

theorem perm_entries (entry : Entry) :
    (done ++ entry :: rest ++ repeaters).Perm (entry :: (done ++ rest ++ repeaters)) := by
  rw [List.append_assoc, List.append_assoc, List.cons_append]
  exact List.perm_middle

theorem perm_entries_done (entry : Entry) :
    (done ++ [entry] ++ rest ++ repeaters).Perm (entry :: (done ++ rest ++ repeaters)) := by
  rw [← List.append_cons]
  exact perm_entries entry

theorem perm_entries_repeaters (entry other : Entry) :
    (done ++ [entry] ++ rest ++ (repeaters ++ [other])).Perm
      (entry :: other :: (done ++ rest ++ repeaters)) := by
  rw [← List.append_assoc]
  calc
    List.Perm _ (other :: (done ++ [entry] ++ rest ++ repeaters)) := List.perm_append_singleton other _
    List.Perm _ (other :: entry :: (done ++ rest ++ repeaters)) := (perm_entries_done entry).cons other
    List.Perm _ (entry :: other :: (done ++ rest ++ repeaters)) := List.Perm.swap entry other _

/-- An entry without recursive rules is spliced, and no language changes. -/
theorem keeps_plain {entry : Entry} (h : (Entry.splice done entry).recursiveTails = [])
    (registered : Registered supply.taken (done ++ entry :: rest ++ repeaters)) :
    Keeps ⟨done, entry :: rest, repeaters, supply⟩
      ⟨done ++ [(Entry.splice done entry).withoutSelf], rest, repeaters, supply⟩ start := by
  have subset : done ⊆ done ++ rest ++ repeaters := by simp
  have hentry := registered.perm (perm_entries entry)
  have hplain := (hentry.spliced subset).withoutSelf
  have hdone := hplain.perm (perm_entries_done _).symm
  refine ⟨hdone, List.Subset.refl _, fun name _ ↦ ?_⟩
  apply congrFun
  calc
    _ = _ := Grammar.language_perm hdone.nodup (perm_entries_done _)
    _ = _ := Grammar.language_withoutSelf h
    _ = _ := Grammar.language_splice hentry.nodup subset
    _ = _ := (Grammar.language_perm registered.nodup (perm_entries entry)).symm

/-- Unrolling a recursive entry keeps the languages of all old names, and its repeater is new. -/
theorem keeps_unrolled {entry : Entry} {repeater : Char} (drawn : supply.Drawn [repeater] supply')
    (registered : Registered supply.taken (done ++ entry :: rest ++ repeaters)) :
    Keeps ⟨done, entry :: rest, repeaters, supply⟩
      ⟨done ++ [(Entry.splice done entry).unrolled stop repeater], rest,
        repeaters ++ [(Entry.splice done entry).repetition stop repeater], supply'⟩ start := by
  have subset : done ⊆ done ++ rest ++ repeaters := by simp
  have fresh := drawn.notMem_taken repeater List.mem_cons_self
  have taken_subset : supply.taken ⊆ supply'.taken := fun name hname ↦
    (drawn.mem_taken name).2 (Or.inr hname)
  have repeater_mem : repeater ∈ supply'.taken :=
    (drawn.mem_taken repeater).2 (Or.inl List.mem_cons_self)
  have hentry := registered.perm (perm_entries entry)
  have hspliced := hentry.spliced subset
  have hunrolled : Registered supply'.taken ((Entry.splice done entry).unrolled stop repeater ::
      (Entry.splice done entry).repetition stop repeater :: (done ++ rest ++ repeaters)) :=
    (hspliced.unrolled fresh).mono (List.cons_subset.2 ⟨repeater_mem, taken_subset⟩)
  have hdone := hunrolled.perm (perm_entries_repeaters _ _).symm
  refine ⟨hdone, taken_subset, fun name hname ↦ ?_⟩
  have hne : name ≠ repeater := fun e ↦ fresh (e ▸ hname)
  calc
    _ = _ := congrFun (Grammar.language_perm hdone.nodup (perm_entries_repeaters _ _)) name
    _ = _ := (hspliced.unrolls fresh).language_eq hne
    _ = _ := congrFun (Grammar.language_splice hentry.nodup subset) name
    _ = _ := congrFun (Grammar.language_perm registered.nodup (perm_entries entry)).symm name

/-- One step keeps the language of every name that was taken before it. -/
theorem keeps_of_step (step : Step stop state next)
    (registered : Registered state.supply.taken state.entries) : Keeps state next start := by
  cases step with
  | plain h => exact keeps_plain h registered
  | unrolled drawn => exact keeps_unrolled drawn registered

/-- A run keeps the language of every name that was taken before it. -/
theorem keeps_of_steps (steps : Steps stop state next)
    (registered : Registered state.supply.taken state.entries) : Keeps state next start := by
  induction steps with
  | refl => exact ⟨registered, List.Subset.refl _, fun _ _ ↦ rfl⟩
  | tail _ step ih =>
    have hlast : Keeps _ _ start := keeps_of_step step ih.registered
    refine ⟨hlast.registered, fun _ hname ↦ hlast.taken_subset (ih.taken_subset hname), ?_⟩
    intro name hname
    rw [hlast.language_eq name (ih.taken_subset hname), ih.language_eq name hname]

end Unwinding

/-! ## Removal from a grammar -/

namespace Grammar

variable {stop : RepetitionStop} {g unwound : Grammar} {supply rest : NameSupply} {name : Char}

/-- A removal that succeeds is a run of steps over the entries, and the result is built from where
it ends. -/
theorem exists_steps_of_withoutLeftRecursion
    (run : (g.withoutLeftRecursion stop).outcome supply = (.ok unwound, rest)) :
    ∃ entries repeaters, Unwinding.Steps stop ⟨[], g.entries, [], supply⟩ ⟨entries, [], repeaters, rest⟩ ∧
      unwound = .ofEntries g.start (entries ++ repeaters) := by
  have ⟨result, middle, hunwind, hpure⟩ := Naming.outcome_bind_eq_ok.1 run
  have ⟨hresult, hrest⟩ := Naming.outcome_pure_eq_ok.1 hpure
  subst hrest
  exact ⟨result.entries, result.repeaters, Unwinding.steps_of_unwind hunwind, hresult.symm⟩

theorem start_withoutLeftRecursion
    (run : (g.withoutLeftRecursion stop).outcome supply = (.ok unwound, rest)) :
    unwound.start = g.start := by
  have ⟨entries, repeaters, _, hunwound⟩ := exists_steps_of_withoutLeftRecursion run
  rw [hunwound]
  exact start_ofEntries g.start _

/-- At the beginning every name in sight is taken. -/
theorem registered_of_covers (nodup : g.names.Nodup) (covers : supply.Covers g) :
    Registered supply.taken g.entries where
  nodup := nodup
  name_mem := fun _ mem ↦ covers.names_subset (List.mem_map_of_mem mem)
  mentioned := fun entry mem rule hrule ↦
    covers.mentioned entry.name rule ((rules_of_mem nodup mem).symm ▸ hrule)

theorem mem_rules_ofEntries_iff_mk {start : Char} {entries : List Entry} {rule : Rule}
    (nodup : (entries.map (·.name)).Nodup) :
    rule ∈ (ofEntries start entries).rules name ↔ rule ∈ (Grammar.mk entries start).rules name := by
  rw [mem_rules_ofEntries nodup]
  exact (mem_rules_iff (g := ⟨entries, start⟩) nodup).symm

/-- Putting entries together to a grammar changes no language. -/
theorem language_ofEntries {start : Char} {entries : List Entry}
    (nodup : (entries.map (·.name)).Nodup) :
    (ofEntries start entries).language = (Grammar.mk entries start).language := by
  apply le_antisymm
  · exact language_le_of_rules_subset fun name rule ↦ (mem_rules_ofEntries_iff_mk nodup).1
  · exact language_le_of_rules_subset fun name rule ↦ (mem_rules_ofEntries_iff_mk nodup).2

theorem exists_keeps_of_withoutLeftRecursion (nodup : g.names.Nodup) (covers : supply.Covers g)
    (run : (g.withoutLeftRecursion stop).outcome supply = (.ok unwound, rest)) :
    ∃ entries repeaters, Unwinding.Steps stop ⟨[], g.entries, [], supply⟩ ⟨entries, [], repeaters, rest⟩ ∧
      Unwinding.Keeps ⟨[], g.entries, [], supply⟩ ⟨entries, [], repeaters, rest⟩ g.start ∧
      unwound = .ofEntries g.start (entries ++ repeaters) := by
  have ⟨entries, repeaters, steps, hunwound⟩ := exists_steps_of_withoutLeftRecursion run
  have registered : Registered supply.taken ([] ++ g.entries ++ []) := by
    rw [List.append_nil]
    exact registered_of_covers nodup covers
  exact ⟨entries, repeaters, steps, Unwinding.keeps_of_steps steps registered, hunwound⟩

/-- Every name that was taken before keeps its language, whichever way the repetitions stop. -/
theorem language_withoutLeftRecursion (nodup : g.names.Nodup) (covers : supply.Covers g)
    (run : (g.withoutLeftRecursion stop).outcome supply = (.ok unwound, rest))
    (hname : name ∈ supply.taken) : unwound.language name = g.language name := by
  have ⟨entries, repeaters, _, keeps, hunwound⟩ := exists_keeps_of_withoutLeftRecursion nodup covers run
  have hlanguage := keeps.language_eq name hname
  have hnodup := keeps.registered.nodup
  simp only [Unwinding.entries, List.append_nil, List.nil_append] at hlanguage hnodup
  rw [hunwound, language_ofEntries hnodup, hlanguage]

/-! ## Main result -/

/-- Every nonterminal generates the same words as before, whichever way the repetitions stop. -/
theorem generates_withoutLeftRecursion_iff (wf : g.WellFormed) (closed : g.Closed)
    (taken : g.names ⊆ supply.taken)
    (run : (g.withoutLeftRecursion stop).outcome supply = (.ok unwound, rest)) :
    (∀ name ∈ g.names, ∀ word, unwound.Generates name word ↔ g.Generates name word) ∧
      unwound.start = g.start := by
  have covers := NameSupply.covers_of_closed wf.names_nodup closed taken
  refine ⟨fun name hname word ↦ ?_, start_withoutLeftRecursion run⟩
  have hlanguage := language_withoutLeftRecursion wf.names_nodup covers run (taken hname)
  exact Set.ext_iff.1 hlanguage word

/-- Left recursion through a unit rule, a unit rule back to its own left side, a nonterminal with nothing
but left recursion, and one without rules. -/
def spinning : Grammar :=
  ⟨[⟨'S', [[.nonterminal 'A', .terminal 'a'], []]⟩,
    ⟨'A', [[.nonterminal 'S'], [.nonterminal 'A'], [.nonterminal 'B', .terminal 'b']]⟩,
    ⟨'B', [[.nonterminal 'B', .nonterminal 'C']]⟩,
    ⟨'C', []⟩], 'S'⟩

def unspun : Grammar :=
  ⟨[⟨'S', [[.nonterminal 'A', .terminal 'a'], []]⟩,
    ⟨'A', [[.nonterminal 'D'], [.nonterminal 'B', .terminal 'b', .nonterminal 'D']]⟩,
    ⟨'B', []⟩,
    ⟨'C', []⟩,
    ⟨'D', [[.terminal 'a', .nonterminal 'D'], []]⟩,
    ⟨'E', [[.nonterminal 'C', .nonterminal 'E'], []]⟩], 'S'⟩

theorem withoutLeftRecursion_spinning :
    (spinning.withoutLeftRecursion .emptyRule).outcome (.avoiding spinning) =
      (.ok unspun, ⟨['E', 'D', 'S', 'A', 'B', 'C']⟩) := by
  rfl

theorem wellFormed_spinning : spinning.WellFormed :=
  ⟨by decide, by decide⟩

theorem closed_spinning : spinning.Closed := by
  have defined : ∀ p ∈ spinning.productions, Rule.nonterminals p.right ⊆ spinning.names := by decide
  exact ⟨by decide, fun p hp _ h ↦ defined p hp h⟩

/-- The words of `A` survive the removal. -/
theorem generates_withoutLeftRecursion_iff_spinning :
    spinning.names ⊆ (NameSupply.avoiding spinning).taken ∧
      ∀ word, unspun.Generates 'A' word ↔ spinning.Generates 'A' word := by
  have taken : spinning.names ⊆ (NameSupply.avoiding spinning).taken := List.Subset.refl _
  have ⟨generates, _⟩ := generates_withoutLeftRecursion_iff wellFormed_spinning closed_spinning taken
    withoutLeftRecursion_spinning
  exact ⟨taken, generates 'A' (by decide)⟩

end Grammar

end GrammarForms
