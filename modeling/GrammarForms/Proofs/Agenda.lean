import GrammarForms.Proofs.Passes

/-!
# Exploring by Agenda

What can be reached from the start symbol can also be explored one name at a time.  An agenda holds the names
that were met, some of them more than once.  The last one met is visited next unless it was visited before, and
then the nonterminals of its rules go on the agenda.  A visit to a nonterminal with rules leaves one less to
visit, and otherwise the agenda gets shorter, so the agenda runs out.  By then the visited names contain
whatever their rules mention, and all of them are reachable.

The generating nonterminals, found in rounds or in passes, are those that derive a word, and the reachable
nonterminals, found in rounds or by an agenda, are those that occur in what the start symbol derives.
-/

namespace GrammarForms

namespace Grammar

variable {g : Grammar} {visited agenda : List Char} {name : Char}

/-! ## The agenda -/

/-- The nonterminals that the rules of a nonterminal mention, repeats included. -/
def mentionedBy (g : Grammar) (name : Char) : List Char :=
  (g.rules name).flatMap Rule.nonterminals

theorem mem_mentionedBy {other : Char} :
    other ∈ g.mentionedBy name ↔ ∃ rule ∈ g.rules name, other ∈ Rule.nonterminals rule :=
  List.mem_flatMap

theorem mentionedBy_eq_nil (h : name ∉ g.names) : g.mentionedBy name = [] := by
  rw [List.eq_nil_iff_forall_not_mem]
  intro other hother
  have ⟨_, mem, _⟩ := mem_mentionedBy.1 hother
  exact h (mem_names_of_mem_rules mem)

/-- The names to put on the agenda with a visit, the last one met first. -/
def unvisitedFrom (g : Grammar) (visited : List Char) (name : Char) : List Char :=
  (outside (g.mentionedBy name) visited).reverse

theorem mem_unvisitedFrom {other : Char} :
    other ∈ g.unvisitedFrom visited name ↔ other ∈ g.mentionedBy name ∧ other ∉ visited := by
  simp [unvisitedFrom, outside]

/-- A visit leaves fewer names outside, or as many and a shorter agenda. -/
theorem lex_visit_lt (hname : name ∉ visited) (rest : List Char) :
    Prod.Lex (· < ·) (· < ·)
      ((outside g.names (name :: visited)).length,
        (g.unvisitedFrom (name :: visited) name ++ rest).length)
      ((outside g.names visited).length, (name :: rest).length) := by
  by_cases hentry : name ∈ g.names
  · exact Prod.Lex.left _ _ (length_outside_lt (List.subset_cons_self _ _) hentry hname List.mem_cons_self)
  · have hsame : outside g.names (name :: visited) = outside g.names visited := by
      apply List.filter_congr
      intro other hother
      have hne : other ≠ name := fun e ↦ hentry (e ▸ hother)
      simp [hne]
    have hnone : g.unvisitedFrom (name :: visited) name = [] := by
      rw [unvisitedFrom, mentionedBy_eq_nil hentry]
      rfl
    rw [hsame, hnone]
    exact Prod.Lex.right _ (Nat.lt_succ_self _)

def explore (g : Grammar) (visited : List Char) : List Char → List Char
  | [] => visited
  | name :: rest =>
    if name ∈ visited then g.explore visited rest
    else g.explore (name :: visited) (g.unvisitedFrom (name :: visited) name ++ rest)
termination_by agenda => ((outside g.names visited).length, agenda.length)
decreasing_by
  · exact Prod.Lex.right _ (Nat.lt_succ_self _)
  · rename_i hname
    exact lex_visit_lt hname rest

/-! ## What is visited in the end -/

/-- The search forgets nothing it has seen or noted. -/
theorem visited_and_agenda_subset_explore (g : Grammar) (visited agenda : List Char) :
    visited ⊆ g.explore visited agenda ∧ agenda ⊆ g.explore visited agenda := by
  fun_induction explore g visited agenda with
  | case1 visited => exact ⟨List.Subset.refl _, List.nil_subset _⟩
  | case2 visited name rest hname ih =>
    exact ⟨ih.1, List.cons_subset.2 ⟨ih.1 hname, ih.2⟩⟩
  | case3 visited name rest hname ih =>
    obtain ⟨hfirst, hvisited⟩ := List.cons_subset.1 ih.1
    exact ⟨hvisited, List.cons_subset.2 ⟨hfirst, (List.append_subset.1 ih.2).2⟩⟩

/-- What the agenda has and what passes to the nonterminals of the rules, every name has that is visited. -/
theorem explore_induction {P : Char → Prop} (hvisited : ∀ name ∈ visited, P name)
    (hagenda : ∀ name ∈ agenda, P name) (step : ∀ name, P name → ∀ other ∈ g.mentionedBy name, P other) :
    ∀ name ∈ g.explore visited agenda, P name := by
  fun_induction explore g visited agenda with
  | case1 visited => exact hvisited
  | case2 visited name rest hname ih => exact ih hvisited (List.forall_mem_cons.1 hagenda).2
  | case3 visited name rest hname ih =>
    obtain ⟨hfirst, hrest⟩ := List.forall_mem_cons.1 hagenda
    refine ih (List.forall_mem_cons.2 ⟨hfirst, hvisited⟩) (List.forall_mem_append.2 ⟨?_, hrest⟩)
    exact fun other hother ↦ step name hfirst other (mem_unvisitedFrom.1 hother).1

/-- Whatever a visited name mentions was visited or is on the agenda; so it is until the agenda has run out. -/
theorem mentionedBy_subset_explore
    (pending : ∀ name ∈ visited, ∀ other ∈ g.mentionedBy name, other ∈ visited ∨ other ∈ agenda) :
    ∀ name ∈ g.explore visited agenda, g.mentionedBy name ⊆ g.explore visited agenda := by
  fun_induction explore g visited agenda with
  | case1 visited =>
    exact fun name hname other hother ↦ (pending name hname other hother).resolve_right List.not_mem_nil
  | case2 visited first rest hfirst ih =>
    refine ih fun name hname other hother ↦ ?_
    rcases pending name hname other hother with h | h
    · exact Or.inl h
    · exact (List.mem_cons.1 h).imp_left fun (e : other = first) ↦ e ▸ hfirst
  | case3 visited first rest hfirst ih =>
    refine ih fun name hname other hother ↦ ?_
    by_cases hmet : other ∈ first :: visited
    · exact Or.inl hmet
    · right
      rcases List.mem_cons.1 hname with rfl | hname
      · exact List.mem_append_left rest (mem_unvisitedFrom.2 ⟨hother, hmet⟩)
      · obtain ⟨hne, hunmet⟩ := not_or.1 (mt List.mem_cons.2 hmet)
        have hagenda := (pending name hname other hother).resolve_left hunmet
        exact List.mem_append_right _ ((List.mem_cons.1 hagenda).resolve_left hne)

/-- The reachable nonterminals, found by an agenda that begins with the start symbol. -/
def reachableByAgenda (g : Grammar) : List Char :=
  g.explore [] [g.start]

/-- The search with an agenda visits the nonterminals of the least set. -/
theorem mem_reachableByAgenda_iff (nodup : g.names.Nodup) :
    name ∈ g.reachableByAgenda ↔ name ∈ g.reachable := by
  constructor
  · revert name
    apply explore_induction
    · simp
    · exact List.forall_mem_singleton.2 g.start_mem_reachable
    · intro name hname other hother
      have ⟨rule, mem, hother⟩ := mem_mentionedBy.1 hother
      exact mem_reachable_of_rule nodup hname mem hother
  · revert name
    apply reachable_induction
    · exact (visited_and_agenda_subset_explore g [] [g.start]).2 List.mem_cons_self
    · intro name hname rule mem other hother
      exact mentionedBy_subset_explore (by simp) name hname (mem_mentionedBy.2 ⟨rule, mem, hother⟩)

/-! ## Generating nonterminals -/

/-- The generating nonterminals, found in passes. -/
def generatingByPasses (g : Grammar) : List Char :=
  passes g.names (fun members name ↦ (g.rules name).any (Rule.isGenerating members)) []

/-- Passes that add a name as soon as one of its rules admits it reach the least set as well. -/
theorem mem_generatingByPasses_iff : name ∈ g.generatingByPasses ↔ name ∈ g.generating := by
  refine GrowsWithMembers.mem_passes_iff ?_ (List.nil_subset _)
  intro members larger name subset
  refine any_mono fun rule h ↦ Rule.isGenerating_iff.2 fun other hother ↦ ?_
  exact subset (Rule.isGenerating_iff.1 h other hother)

/-! ## Main result -/

/-- The generating nonterminals are those that derive a word, and the reachable ones those that occur in a
sentential form of the start symbol, whichever way they are found. -/
theorem mem_generating_and_mem_reachable_iff (nodup : g.names.Nodup) :
    (∀ name, name ∈ g.generating ↔ ∃ word : List Char, g.Derives [.nonterminal name] (word.map .terminal)) ∧
    (∀ name, name ∈ g.reachable ↔
      ∃ form, g.Derives [.nonterminal g.start] form ∧ .nonterminal name ∈ form) ∧
    (∀ name, name ∈ g.generatingByPasses ↔
      ∃ word : List Char, g.Derives [.nonterminal name] (word.map .terminal)) ∧
    ∀ name, name ∈ g.reachableByAgenda ↔
      ∃ form, g.Derives [.nonterminal g.start] form ∧ .nonterminal name ∈ form := by
  have hgenerating (name : Char) : name ∈ g.generating ↔
      ∃ word : List Char, g.Derives [.nonterminal name] (word.map .terminal) := mem_generating_iff
  have hreachable (name : Char) : name ∈ g.reachable ↔
      ∃ form, g.Derives [.nonterminal g.start] form ∧ .nonterminal name ∈ form := mem_reachable_iff nodup
  exact ⟨hgenerating, hreachable, fun name ↦ mem_generatingByPasses_iff.trans (hgenerating name),
    fun name ↦ (mem_reachableByAgenda_iff nodup).trans (hreachable name)⟩

/-- One nonterminal derives no word and hides one without an entry, one turns on itself and ends with the empty
word, and one is not reached. -/
def strayed : Grammar :=
  ⟨[⟨'S', [[.nonterminal 'A', .nonterminal 'Z'], [.terminal 'a', .nonterminal 'B', .nonterminal 'B']]⟩,
    ⟨'A', [[.nonterminal 'A']]⟩,
    ⟨'B', [[.terminal 'b', .nonterminal 'B'], [.nonterminal 'S', .nonterminal 'A'], []]⟩,
    ⟨'C', [[.nonterminal 'S', .nonterminal 'C'], [.terminal 'c']]⟩], 'S'⟩

theorem mem_generating_and_mem_reachable_iff_strayed :
    strayed.names.Nodup ∧
      (∃ word : List Char, strayed.Derives [.nonterminal 'B'] (word.map .terminal)) ∧
      (¬∃ word : List Char, strayed.Derives [.nonterminal 'A'] (word.map .terminal)) ∧
      (∃ form, strayed.Derives [.nonterminal 'S'] form ∧ .nonterminal 'Z' ∈ form) ∧
      ¬∃ form, strayed.Derives [.nonterminal 'S'] form ∧ .nonterminal 'C' ∈ form := by
  have nodup : strayed.names.Nodup := by decide
  have ⟨hgenerating, hreachable, _⟩ := mem_generating_and_mem_reachable_iff nodup
  refine ⟨nodup, (hgenerating 'B').1 ?_, mt (hgenerating 'A').2 ?_, (hreachable 'Z').1 ?_,
    mt (hreachable 'C').2 ?_⟩
  · decide
  · decide
  · decide
  · decide

end Grammar

end GrammarForms
