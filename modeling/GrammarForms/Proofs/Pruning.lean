import GrammarForms.Proofs.EmptyRules
import GrammarForms.Proofs.Passes

/-!
# Pruning in Rounds

The barren nonterminals are found first and then left out all at once.  A program may as well prune round by
round: it leaves out the nonterminals that have no rules, together with the rules that mention them, and goes
on while this leaves others without rules.  The start symbol keeps its entry, so the names found in earlier
rounds are remembered and not found again.  Every round finds only barren nonterminals, and when a round finds
none they have all been found.
-/

namespace GrammarForms

namespace Rule

variable {names others : List Char} {rule : Rule}

theorem mentionsAny_mono (subset : names ⊆ others) (h : mentionsAny names rule = true) :
    mentionsAny others rule = true := by
  have ⟨name, hname, hmember⟩ := mentionsAny_iff.1 h
  exact mentionsAny_iff.2 ⟨name, hname, subset hmember⟩

theorem mentionsAny_append :
    mentionsAny (names ++ others) rule = (mentionsAny names rule || mentionsAny others rule) := by
  rw [Bool.eq_iff_iff, Bool.or_eq_true, mentionsAny_iff, mentionsAny_iff, mentionsAny_iff]
  simp only [List.mem_append, and_or_left, exists_or]

end Rule

namespace Grammar

variable {g h : Grammar} {found names others : List Char} {name : Char}

/-! ## Leaving out nonterminals -/

/-- Leaves out the rules that mention any of the nonterminals, and their entries apart from that of the start
symbol. -/
def without (g : Grammar) (names : List Char) : Grammar :=
  (g.keepRules (!Rule.mentionsAny names ·)).keepEntries (!names.contains ·.name)

/-- Rounds add up: leaving names out twice is leaving all of them out at once. -/
theorem without_without (g : Grammar) (names others : List Char) :
    (g.without names).without others = g.without (names ++ others) := by
  have hrule (rule : Rule) : (!Rule.mentionsAny others rule && !Rule.mentionsAny names rule) =
      !Rule.mentionsAny (names ++ others) rule := by
    rw [Rule.mentionsAny_append, Bool.not_or, Bool.and_comm]
  have hname (name : Char) : ((name == g.start || !others.contains name) &&
      (name == g.start || !names.contains name)) = (name == g.start || !(names ++ others).contains name) := by
    rw [← Bool.or_and_distrib_left, List.contains_append, Bool.not_or, Bool.and_comm (!others.contains name)]
  simp only [without, keepEntries, keepRules, List.filter_map, List.map_map, List.filter_filter,
    Function.comp_def, hrule, hname]

theorem without_nil (g : Grammar) : g.without [] = g := by
  have hrules : g.keepRules (!Rule.mentionsAny [] ·) = g :=
    keepRules_eq_self fun p _ ↦ by simp [Rule.mentionsAny]
  have hnames : ∀ name ∈ g.names, (!([] : List Char).contains name) = true := fun _ _ ↦ rfl
  rw [without, hrules]
  exact keepEntries_eq_self hnames

theorem without_congr (h : ∀ name, name ∈ names ↔ name ∈ others) : g.without names = g.without others := by
  have hrule (rule : Rule) : Rule.mentionsAny names rule = Rule.mentionsAny others rule :=
    Rule.mentionsAny_congr fun name _ ↦ h name
  have hname (name : Char) : names.contains name = others.contains name := by
    rw [Bool.eq_iff_iff, List.contains_iff_mem, List.contains_iff_mem, h]
  simp only [without, hrule, hname]

theorem mem_names_without :
    name ∈ (g.without names).names ↔ name ∈ g.names ∧ (name = g.start ∨ name ∉ names) := by
  rw [without, mem_names_keepEntries (!names.contains ·), names_keepRules]
  simp [keepRules]

/-- A nonterminal that stays keeps the rules that mention none of the names. -/
theorem rules_without (h : name ∉ names) :
    (g.without names).rules name = (g.rules name).filter (!Rule.mentionsAny names ·) := by
  rw [without, rules_keepEntries _ (!names.contains ·), rules_keepRules]
  simp [h]

/-! ## Rounds -/

/-- The nonterminals without rules that were not found before. -/
def emptied (g : Grammar) (found : List Char) : List Char :=
  outside (g.names.filter fun name ↦ (g.rules name).isEmpty) found

/-- A round finds the nonterminals that have just lost their last rule. -/
theorem mem_emptied :
    name ∈ g.emptied found ↔ name ∈ g.names ∧ name ∉ found ∧ g.rules name = [] := by
  simp [emptied, outside]

/-- Every round that finds something brings the pruning closer to its end. -/
theorem length_outside_names_lt (h : g.emptied found ≠ []) :
    (outside (g.without (g.emptied found)).names (found ++ g.emptied found)).length <
      (outside g.names found).length := by
  have ⟨name, hname⟩ := List.exists_mem_of_ne_nil _ h
  have ⟨hentry, hfound, _⟩ := mem_emptied.1 hname
  have hsublist : (g.without (g.emptied found)).names.Sublist g.names := by
    rw [without, names_keepEntries _ (!(g.emptied found).contains ·), names_keepRules]
    exact List.filter_sublist
  calc
    _ ≤ (outside g.names (found ++ g.emptied found)).length := (hsublist.filter _).length_le
    _ < (outside g.names found).length :=
      length_outside_lt (List.subset_append_left _ _) hentry hfound (List.mem_append_right _ hname)

/-- The names found in earlier rounds are not found again. -/
def pruneRounds (g : Grammar) (found : List Char) : Grammar :=
  if g.emptied found = [] then g
  else (g.without (g.emptied found)).pruneRounds (found ++ g.emptied found)
termination_by (outside g.names found).length
decreasing_by
  rename_i hfound
  exact length_outside_names_lt hfound

/-- Where names that were found are left out, a nonterminal has no rules exactly if all its rules mention some. -/
theorem rules_without_eq_nil_iff (h : name ∉ found) :
    (g.without found).rules name = [] ↔ ∀ rule ∈ g.rules name, Rule.mentionsAny found rule = true := by
  rw [rules_without h, List.filter_eq_nil_iff]
  simp

/-- A round finds barren nonterminals if the rounds before it did. -/
theorem emptied_without_subset_barren (hfound : found ⊆ g.barren) :
    (g.without found).emptied found ⊆ g.barren := by
  intro name hname
  have ⟨hentry, hname, hrules⟩ := mem_emptied.1 hname
  have hmentions := (rules_without_eq_nil_iff hname).1 hrules
  refine mem_leastSet_iff.2 ⟨(mem_names_without.1 hentry).1, Or.inr (List.all_eq_true.2 ?_)⟩
  exact fun rule mem ↦ Rule.mentionsAny_mono hfound (hmentions rule mem)

/-- When a round finds none, no barren nonterminal is missing. -/
theorem barren_subset_of_emptied_eq_nil (h : (g.without found).emptied found = []) : g.barren ⊆ found := by
  intro name
  revert name
  apply leastSet_induction
  intro members name hmembers hname hall
  by_contra hfound
  have hrules : (g.without found).rules name = [] := by
    refine (rules_without_eq_nil_iff hfound).2 fun rule mem ↦ ?_
    exact Rule.mentionsAny_mono hmembers (List.all_eq_true.1 hall rule mem)
  have hentry := mem_names_without.2 ⟨hname, Or.inr hfound⟩
  have hemptied : name ∈ (g.without found).emptied found := mem_emptied.2 ⟨hentry, hfound, hrules⟩
  rw [h] at hemptied
  cases hemptied

/-- The rounds are cut off at the barren nonterminals, wherever they begin on the way there. -/
theorem pruneRounds_of_eq_without (hg : h = g.without found) (hfound : found ⊆ g.barren) :
    h.pruneRounds found = g.withoutBarren := by
  fun_induction pruneRounds h found with
  | case1 h found hnone =>
    subst hg
    have hbarren := barren_subset_of_emptied_eq_nil hnone
    exact without_congr fun name ↦ ⟨fun hname ↦ hfound hname, fun hname ↦ hbarren hname⟩
  | case2 h found hsome ih =>
    subst hg
    apply ih
    · exact without_without g found _
    · exact List.append_subset.2 ⟨hfound, emptied_without_subset_barren hfound⟩

/-- Pruning round by round leaves what leaving out the barren nonterminals at once does. -/
theorem pruneRounds_nil (g : Grammar) : g.pruneRounds [] = g.withoutBarren :=
  pruneRounds_of_eq_without (without_nil g).symm (List.nil_subset _)

end Grammar

end GrammarForms
