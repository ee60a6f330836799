import GrammarForms.Chomsky
import GrammarForms.Proofs.Naming
import Mathlib.Data.List.Zip

/-!
# Stand-Ins Drawn on the Way

The stand-ins of terminals are drawn on a walk through the rules, one whenever a terminal of a longer rule is met
for the first time.  All that the walk does is known in advance but for the names: how many it draws, which
terminals they are for, and that each terminal gets the same stand-in wherever it occurs.  So the walk comes to
the same as to draw all names first and then to replace the terminals.
-/

namespace GrammarForms

/-! ## Terminals met for the first time -/

/-- The terminals of a list that are not known yet, each where it is met first. -/
def unmet (known : List Char) : List Char → List Char
  | [] => []
  | c :: rest => if c ∈ known then unmet known rest else c :: unmet (known ++ [c]) rest

theorem foldl_appendNew_eq_append_unmet (known terminals : List Char) :
    terminals.foldl appendNew known = known ++ unmet known terminals := by
  induction terminals generalizing known with
  | nil => exact (List.append_nil known).symm
  | cons c rest ih =>
    rw [List.foldl_cons, ih, appendNew, unmet]
    split
    · rfl
    · rw [List.append_assoc, List.singleton_append]

/-- What a second list has unmet is counted from the table as the first list left it. -/
theorem unmet_append (known terminals more : List Char) :
    unmet known (terminals ++ more) =
      unmet known terminals ++ unmet (known ++ unmet known terminals) more := by
  have h := foldl_appendNew_eq_append_unmet known (terminals ++ more)
  rw [List.foldl_append, foldl_appendNew_eq_append_unmet, foldl_appendNew_eq_append_unmet,
    List.append_assoc] at h
  exact (List.append_cancel_left h).symm

theorem mem_append_unmet {known terminals : List Char} {c : Char} (h : c ∈ terminals) :
    c ∈ known ++ unmet known terminals := by
  rw [← foldl_appendNew_eq_append_unmet]
  exact mem_foldl_appendNew.2 (Or.inr h)

/-- Where nothing is known, every terminal is met for the first time once. -/
theorem unmet_nil_left (terminals : List Char) : unmet [] terminals = distinct terminals :=
  (foldl_appendNew_eq_append_unmet [] terminals).symm

/-! ## The table -/

namespace StandInTable

variable {table : StandInTable} {c name : Char}

/-- The terminals that have a stand-in. -/
def known (table : StandInTable) : List Char :=
  table.map Prod.fst

/-- The table after the terminals were met, with the names that were drawn for new ones. -/
def met (table : StandInTable) (terminals names : List Char) : StandInTable :=
  table ++ (unmet table.known terminals).zip names

theorem mem_known_of_lookup (h : table.lookup c = some name) : c ∈ table.known := by
  have ⟨before, after, htable, _⟩ := List.lookup_eq_some_iff.1 h
  rw [htable]
  simp [known]

theorem notMem_known_of_lookup (h : table.lookup c = none) : c ∉ table.known := by
  intro hc
  have ⟨pair, hpair, e⟩ := List.mem_map.1 hc
  have hne := List.lookup_eq_none_iff.1 h pair hpair
  rw [e, bne_self_eq_false] at hne
  cases hne

theorem exists_lookup_of_mem_known (h : c ∈ table.known) : ∃ name, table.lookup c = some name := by
  cases hlookup : table.lookup c with
  | some name => exact ⟨name, rfl⟩
  | none => exact absurd h (notMem_known_of_lookup hlookup)

/-- A stand-in once entered is never replaced. -/
theorem lookup_met (h : table.lookup c = some name) (terminals names : List Char) :
    (table.met terminals names).lookup c = some name := by
  rw [met, List.lookup_append, h, Option.some_or]

theorem known_concat (table : StandInTable) (c name : Char) :
    known (table ++ [(c, name)]) = table.known ++ [c] :=
  List.map_append

/-- The table knows the terminals it knew before, and then those it has met in the order it met
them. -/
theorem known_met {terminals names : List Char} (h : names.length = (unmet table.known terminals).length) :
    (table.met terminals names).known = table.known ++ unmet table.known terminals := by
  rw [known, met, List.map_append, List.map_fst_zip (Nat.le_of_eq h.symm)]
  rfl

/-- A terminal with a stand-in is not met for the first time, and the table stays as it is. -/
theorem unmet_cons_of_lookup_eq_some (h : table.lookup c = some name) (rest : List Char) :
    unmet table.known (c :: rest) = unmet table.known rest :=
  if_pos (mem_known_of_lookup h)

theorem met_cons_of_lookup_eq_some (h : table.lookup c = some name) (rest names : List Char) :
    table.met (c :: rest) names = table.met rest names := by
  rw [met, unmet_cons_of_lookup_eq_some h]
  rfl

/-- A terminal without a stand-in takes the first name, and the table goes on with the others. -/
theorem unmet_cons_of_lookup_eq_none (h : table.lookup c = none) (rest : List Char) :
    unmet table.known (c :: rest) = c :: unmet (table.known ++ [c]) rest :=
  if_neg (notMem_known_of_lookup h)

theorem met_cons_of_lookup_eq_none (h : table.lookup c = none) (rest others : List Char) :
    table.met (c :: rest) (name :: others) = met (table ++ [(c, name)]) rest others := by
  rw [met, met, unmet_cons_of_lookup_eq_none h, known_concat, List.zip_cons_cons, List.append_assoc,
    List.singleton_append]

theorem lookup_concat (h : table.lookup c = none) (name : Char) :
    (table ++ [(c, name)]).lookup c = some name := by
  rw [List.lookup_append, h, Option.none_or, List.lookup_cons_self]

/-- Terminals met in two portions leave the table that they leave when met together. -/
theorem met_met {terminals more names others : List Char}
    (h : names.length = (unmet table.known terminals).length) :
    (table.met terminals names).met more others = table.met (terminals ++ more) (names ++ others) := by
  rw [met, known_met h, met, met, unmet_append, List.zip_append h.symm, List.append_assoc]

end StandInTable

/-! ## One rule -/

namespace Rule

variable {table : StandInTable} {rule : Rule}

/-- The terminals of a rule. -/
def terminals (rule : Rule) : List Char :=
  rule.filterMap fun symbol ↦
    match symbol with
    | .terminal c => some c
    | .nonterminal _ => none

/-- The terminals of a rule of two or more symbols, which should hold none. -/
def misplacedTerminals (rule : Rule) : List Char :=
  if rule.length < 2 then [] else terminals rule

def replaceTerminal (standIn : List (Char × Char)) : Symbol → Symbol
  | .terminal c => ((standIn.lookup c).map Symbol.nonterminal).getD (.terminal c)
  | .nonterminal name => .nonterminal name

/-- Replaces the terminals of a longer rule by the nonterminals that stand for them. -/
def replaceTerminals (standIn : List (Char × Char)) (rule : Rule) : Rule :=
  if rule.length < 2 then rule else rule.map (replaceTerminal standIn)

/-- The walk draws a name for each new terminal of the rule and replaces all of them by the final table. -/
theorem isolateSymbols_eq (table : StandInTable) (rule : Rule) :
    isolateSymbols table rule = (do
      let names ← NameSupply.freshMany "a terminal substitution"
        (unmet table.known (terminals rule)).length
      return (rule.map (replaceTerminal (table.met (terminals rule) names)),
        table.met (terminals rule) names)) := by
  induction rule generalizing table with
  | nil => simp [isolateSymbols, terminals, unmet, NameSupply.freshMany, StandInTable.met]
  | cons symbol rest ih =>
    cases symbol with
    | nonterminal name =>
      have hterminals : terminals (.nonterminal name :: rest) = terminals rest := rfl
      simp only [isolateSymbols, ih, hterminals, bind_assoc, pure_bind, List.map_cons, replaceTerminal]
    | terminal c =>
      have hterminals : terminals (.terminal c :: rest) = c :: terminals rest := rfl
      cases hlookup : table.lookup c with
      | some name =>
        have hfinal (names : List Char) : (table.met (terminals rest) names).lookup c = some name :=
          StandInTable.lookup_met hlookup (terminals rest) names
        simp only [isolateSymbols, StandInTable.meet, hlookup, pure_bind, ih, hterminals, bind_assoc,
          StandInTable.unmet_cons_of_lookup_eq_some hlookup, StandInTable.met_cons_of_lookup_eq_some hlookup,
          List.map_cons, replaceTerminal, hfinal, Option.map_some, Option.getD_some]
      | none =>
        have hfinal (name : Char) (others : List Char) :
            (StandInTable.met (table ++ [(c, name)]) (terminals rest) others).lookup c = some name :=
          StandInTable.lookup_met (StandInTable.lookup_concat hlookup name) (terminals rest) others
        simp only [isolateSymbols, StandInTable.meet, hlookup, bind_assoc, pure_bind, ih, hterminals,
          StandInTable.unmet_cons_of_lookup_eq_none hlookup, StandInTable.met_cons_of_lookup_eq_none hlookup,
          List.length_cons, NameSupply.freshMany, StandInTable.known_concat, List.map_cons, replaceTerminal,
          hfinal, Option.map_some, Option.getD_some]

/-- A short rule draws no name; any other draws one for each of its terminals that the table does
not know. -/
theorem isolate_eq (table : StandInTable) (rule : Rule) :
    isolate table rule = (do
      let names ← NameSupply.freshMany "a terminal substitution"
        (unmet table.known (misplacedTerminals rule)).length
      return (replaceTerminals (table.met (misplacedTerminals rule) names) rule,
        table.met (misplacedTerminals rule) names)) := by
  unfold isolate misplacedTerminals replaceTerminals
  split
  · simp [unmet, NameSupply.freshMany, StandInTable.met]
  · exact isolateSymbols_eq table rule

/-- What is entered later changes nothing for a rule whose terminals are all in the table. -/
theorem replaceTerminals_met {more others : List Char} (h : ∀ c ∈ misplacedTerminals rule, c ∈ table.known) :
    replaceTerminals (table.met more others) rule = replaceTerminals table rule := by
  unfold misplacedTerminals at h
  unfold replaceTerminals
  split
  · rfl
  · rename_i hlength
    rw [if_neg hlength] at h
    apply List.map_congr_left
    intro symbol hsymbol
    cases symbol with
    | nonterminal name => rfl
    | terminal c =>
      have ⟨name, hname⟩ := StandInTable.exists_lookup_of_mem_known
        (h c (List.mem_filterMap.2 ⟨.terminal c, hsymbol, rfl⟩))
      rw [replaceTerminal, replaceTerminal, hname, StandInTable.lookup_met hname]

end Rule

/-! ## All rules -/

/-- A walk through many rules draws a name for each terminal that is new to the table, once for all of them,
and replaces the terminals by the final table. -/
theorem isolateAll_eq (table : StandInTable) (productions : List Production) :
    isolateAll table productions = (do
      let names ← NameSupply.freshMany "a terminal substitution"
        (unmet table.known (productions.flatMap fun p ↦ Rule.misplacedTerminals p.right)).length
      let final := table.met (productions.flatMap fun p ↦ Rule.misplacedTerminals p.right) names
      return (productions.map fun p ↦ ⟨p.left, Rule.replaceTerminals final p.right⟩, final)) := by
  induction productions generalizing table with
  | nil => simp [isolateAll, unmet, NameSupply.freshMany, StandInTable.met]
  | cons p rest ih =>
    rw [List.flatMap_cons, unmet_append, List.length_append, NameSupply.freshMany_add]
    simp only [isolateAll, Rule.isolate_eq, ih, bind_assoc, pure_bind]
    apply NameSupply.freshMany_bind_congr
    intro names hnames
    -- The first rule was replaced by the table as it stood then, and later entries do not matter to it.
    have hrule (more others : List Char) :
        Rule.replaceTerminals ((table.met (Rule.misplacedTerminals p.right) names).met more others) p.right =
          Rule.replaceTerminals (table.met (Rule.misplacedTerminals p.right) names) p.right := by
      apply Rule.replaceTerminals_met
      intro c hc
      rw [StandInTable.known_met hnames]
      exact mem_append_unmet hc
    simp only [StandInTable.known_met hnames, ← StandInTable.met_met hnames, List.map_cons, hrule]

namespace Grammar

def misplacedTerminals (g : Grammar) : List Char :=
  distinct (g.productions.flatMap fun p ↦ Rule.misplacedTerminals p.right)

/-- The grammar in which these names stand for its misplaced terminals. -/
def isolatedBy (g : Grammar) (standIns : List Char) : Grammar :=
  g.rebuild
    (g.productions.map (fun p ↦
        ⟨p.left, Rule.replaceTerminals (g.misplacedTerminals.zip standIns) p.right⟩) ++
      (standIns.zip g.misplacedTerminals).map fun (name, c) ↦ ⟨name, [.terminal c]⟩)

/-- The isolation draws exactly one name for each terminal that a longer rule holds. -/
theorem isolateTerminals_eq (g : Grammar) :
    g.isolateTerminals =
      g.isolatedBy <$> NameSupply.freshMany "a terminal substitution" g.misplacedTerminals.length := by
  have hknown : StandInTable.known [] = [] := rfl
  have hswap (standIns : List Char) :
      (g.misplacedTerminals.zip standIns).map (fun (c, name) ↦ (⟨name, [.terminal c]⟩ : Production)) =
        (standIns.zip g.misplacedTerminals).map fun (name, c) ↦ ⟨name, [.terminal c]⟩ := by
    rw [← List.zip_swap standIns, List.map_map]
    rfl
  have hmet (standIns : List Char) :
      StandInTable.met [] (g.productions.flatMap fun p ↦ Rule.misplacedTerminals p.right) standIns =
        g.misplacedTerminals.zip standIns := by
    rw [StandInTable.met, hknown, unmet_nil_left]
    rfl
  rw [isolateTerminals, isolateAll_eq, hknown, unmet_nil_left, ← bind_pure_comp]
  simp only [bind_assoc, pure_bind, hmet, hswap]
  rfl

end Grammar

end GrammarForms
