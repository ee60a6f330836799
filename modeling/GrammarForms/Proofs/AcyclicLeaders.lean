import GrammarForms.Proofs.BackSubstitution
import Mathlib.Data.Char
import Mathlib.Order.WellFoundedSet

/-!
# Back Substitution without Cycles of Leaders

Back substitution finishes its work wherever no nonterminal leads back to itself, however the grammar came
about.  There are only finitely many nonterminals, so without cycles every chain of leaders comes to an end,
and the grammar is grounded.  Each pass then settles another nonterminal and keeps those that are settled.
The passes that are made are therefore no more than there are nonterminals, one less than is allowed.
-/

namespace GrammarForms.Grammar

variable {g : Grammar} {passes : Nat}

/-! ## Grammars without cycles of leaders -/

/-- Leaders are among finitely many names, so a relation without cycles has no endless descent. -/
theorem wellFounded_leads (led : ∀ name, ∀ rule ∈ g.rules name, Rule.LedWithin g.names rule)
    (acyclic : ∀ name, ¬Relation.TransGen g.Leads name name) : WellFounded g.Leads := by
  have hirrefl : Std.Irrefl (Relation.TransGen g.Leads) := ⟨acyclic⟩
  have horder : IsStrictOrder Char (Relation.TransGen g.Leads) := {}
  have hfinite : {name | name ∈ g.names}.Finite := List.finite_toSet g.names
  have hwf := Set.wellFoundedOn_iff.1 (hfinite.wellFoundedOn (r := Relation.TransGen g.Leads))
  apply Subrelation.wf _ hwf
  intro leader name leads
  have ⟨rule, mem, hleader⟩ := leads
  exact ⟨.single leads, (led name rule mem).leader_mem leader hleader, mem_names_of_mem_rules mem⟩

/-- What the back substitution needs follows from a closed grammar without empty rules and without a
cycle of leaders. -/
theorem grounded_of_acyclic (nodup : g.names.Nodup) (nonempty : ∀ p ∈ g.productions, p.right ≠ [])
    (defined : ∀ p ∈ g.productions, ∀ name ∈ Rule.nonterminals p.right, name ∈ g.names)
    (acyclic : ∀ name, ¬Relation.TransGen g.Leads name name) : g.Grounded := by
  have led (name : Char) (rule : Rule) (mem : rule ∈ g.rules name) : Rule.LedWithin g.names rule := by
    have hp : ⟨name, rule⟩ ∈ g.productions := (mem_productions nodup).2 mem
    exact ⟨nonempty _ hp, fun leader hleader ↦ defined _ hp leader (Rule.mem_nonterminals_of_leader? hleader)⟩
  exact ⟨nodup, led, wellFounded_leads led acyclic⟩

/-! ## Counting the passes -/

/-- The replacements of one pass. -/
def settlePass (g : Grammar) : Grammar :=
  g.expandLeaders g.settled

theorem length_entries_settlePass (g : Grammar) : g.settlePass.entries.length = g.entries.length :=
  List.length_map _

/-- The loop makes some number of passes, and each of them settles more than was settled before. -/
theorem Grounded.exists_iterate_settlePass (grounded : g.Grounded) (passes : Nat) :
    ∃ count, count + g.settled.length ≤ g.entries.length ∧
      g.backSubstitutePasses passes = settlePass^[count] g ∧
      ∀ earlier < count,
        (settlePass^[earlier] g).settled ⊆ (settlePass^[earlier + 1] g).settled ∧
          (settlePass^[earlier] g).settled.length < (settlePass^[earlier + 1] g).settled.length := by
  induction passes generalizing g with
  | zero => exact ⟨0, by simpa using settled_length_le, rfl, by simp⟩
  | succ passes ih =>
    simp only [backSubstitutePasses]
    split
    · exact ⟨0, by simpa using settled_length_le, rfl, by simp⟩
    · rename_i hsettled
      have hlt : g.settled.length < g.settlePass.settled.length := grounded.settled_length_lt hsettled
      obtain ⟨count, hcount, hpasses, hgrows⟩ := ih grounded.expandLeaders_settled
      have hlength := g.length_entries_settlePass
      rw [if_pos (grounded.canExpand hsettled)]
      refine ⟨count + 1, ?_, hpasses, fun earlier hearlier ↦ ?_⟩
      · change count + g.settlePass.settled.length ≤ g.settlePass.entries.length at hcount
        omega
      · cases earlier with
        | zero => exact ⟨grounded.settled_subset, hlt⟩
        | succ earlier => exact hgrows earlier (by omega)

/-! ## Main result -/

/-- Where no nonterminal leads back to itself, at most as many passes as there are nonterminals are made, each
settles more than was settled before, every rule begins with a terminal in the end, and all languages stay. -/
theorem backSubstitute_of_acyclic (nodup : g.names.Nodup)
    (nonempty : ∀ p ∈ g.productions, p.right ≠ [])
    (defined : ∀ p ∈ g.productions, ∀ name ∈ Rule.nonterminals p.right, name ∈ g.names)
    (acyclic : ∀ name, ¬Relation.TransGen g.Leads name name) :
    (∃ count ≤ g.names.length, g.backSubstitute = settlePass^[count] g ∧
      ∀ earlier < count,
        (settlePass^[earlier] g).settled ⊆ (settlePass^[earlier + 1] g).settled ∧
          (settlePass^[earlier] g).settled.length < (settlePass^[earlier + 1] g).settled.length) ∧
      (∀ p ∈ g.backSubstitute.productions, ∃ c tail, p.right = .terminal c :: tail) ∧
      ∀ name word, g.backSubstitute.Generates name word ↔ g.Generates name word := by
  have grounded := grounded_of_acyclic nodup nonempty defined acyclic
  refine ⟨?_, fun p hp ↦ ?_, fun name word ↦ ?_⟩
  · have ⟨count, hcount, hpasses, hgrows⟩ := grounded.exists_iterate_settlePass (g.entries.length + 1)
    have hnames : g.names.length = g.entries.length := List.length_map _
    exact ⟨count, by omega, hpasses, hgrows⟩
  · have hgreibach := grounded.isGreibach_backSubstitute
    exact Rule.beginsWithTerminal_iff.1 (List.all_eq_true.1 hgreibach p hp)
  · have hlanguage : g.backSubstitute.language name = g.language name := by rw [language_backSubstitute]
    exact Set.ext_iff.1 hlanguage word

/-- A nonterminal is led by earlier letters only, whatever occurs further on in its rules. -/
def layered : Grammar :=
  ⟨[⟨'C', [[.nonterminal 'B', .nonterminal 'A'], [.nonterminal 'A']]⟩,
    ⟨'B', [[.nonterminal 'A', .nonterminal 'C'], [.terminal 'b']]⟩,
    ⟨'A', [[.terminal 'a', .nonterminal 'B'], [.terminal 'c']]⟩], 'C'⟩

def flattened : Grammar :=
  ⟨[⟨'C', [[.terminal 'a', .nonterminal 'B', .nonterminal 'C', .nonterminal 'A'],
      [.terminal 'c', .nonterminal 'C', .nonterminal 'A'], [.terminal 'b', .nonterminal 'A'],
      [.terminal 'a', .nonterminal 'B'], [.terminal 'c']]⟩,
    ⟨'B', [[.terminal 'a', .nonterminal 'B', .nonterminal 'C'], [.terminal 'c', .nonterminal 'C'],
      [.terminal 'b']]⟩,
    ⟨'A', [[.terminal 'a', .nonterminal 'B'], [.terminal 'c']]⟩], 'C'⟩

theorem not_transGen_leads_layered (name : Char) : ¬Relation.TransGen layered.Leads name name := by
  have hlower : ∀ p ∈ layered.productions, (Rule.leader? p.right).all (· < p.left) = true := by decide
  have hleads : layered.Leads ≤ (· < ·) := by
    intro leader name ⟨rule, mem, hleader⟩
    have hlt := hlower ⟨name, rule⟩ ((mem_productions (by decide)).2 mem)
    rw [hleader, Option.all_some] at hlt
    exact of_decide_eq_true hlt
  intro cycle
  exact lt_irrefl name (Relation.transGen_minimal hleads name name cycle)

/-- The three layers come out led by terminals, and every language stays. -/
theorem backSubstitute_of_acyclic_layered :
    (∀ name, ¬Relation.TransGen layered.Leads name name) ∧
      (∀ p ∈ flattened.productions, ∃ c tail, p.right = .terminal c :: tail) ∧
      ∀ name word, flattened.Generates name word ↔ layered.Generates name word := by
  have hback : layered.backSubstitute = flattened := by decide
  have hdefined : ∀ p ∈ layered.productions, Rule.nonterminals p.right ⊆ layered.names := by decide
  have ⟨_, hterminal, hlanguage⟩ := backSubstitute_of_acyclic (by decide) (by decide)
    (fun p hp _ hname ↦ hdefined p hp hname) not_transGen_leads_layered
  rw [hback] at hterminal hlanguage
  exact ⟨not_transGen_leads_layered, hterminal, hlanguage⟩

end GrammarForms.Grammar
