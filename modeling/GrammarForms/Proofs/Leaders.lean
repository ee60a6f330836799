import GrammarForms.Proofs.Meaning

/-!
# Leading Nonterminals

A leading nonterminal can be replaced by its rules.  A word of the old rule is then a word of one of
the new ones, provided that the nonterminal itself has no rules but those that were put in its place,
and the new rules have no words beyond it.  All languages stay, whether one nonterminal is replaced or
many at once.
-/

namespace GrammarForms

namespace Rule

@[simp]
theorem leader?_nil : leader? [] = none := rfl

@[simp]
theorem leader?_terminal_cons (c : Char) (tail : Rule) : leader? (.terminal c :: tail) = none := rfl

@[simp]
theorem leader?_nonterminal_cons (name : Char) (tail : Rule) :
    leader? (.nonterminal name :: tail) = some name := rfl

theorem leader?_eq_some {rule : Rule} {name : Char} :
    leader? rule = some name ↔ ∃ tail, rule = .nonterminal name :: tail := by
  cases rule with
  | nil => simp
  | cons symbol tail => cases symbol <;> simp

/-- What follows a rule that has symbols does not matter for its leader. -/
theorem leader?_append {rule : Rule} (hne : rule ≠ []) (rest : Rule) :
    leader? (rule ++ rest) = leader? rule := by
  cases rule with
  | nil => exact absurd rfl hne
  | cons symbol tail => rfl

theorem mem_nonterminals_of_leader? {rule : Rule} {name : Char} (h : leader? rule = some name) :
    name ∈ nonterminals rule := by
  have ⟨tail, hrule⟩ := leader?_eq_some.1 h
  rw [hrule]
  exact mem_nonterminals_cons_self name tail

/-- A rule in Greibach form is a terminal followed by anything. -/
theorem beginsWithTerminal_iff {rule : Rule} :
    beginsWithTerminal rule = true ↔ ∃ c tail, rule = .terminal c :: tail := by
  cases rule with
  | nil => simp [beginsWithTerminal]
  | cons symbol tail => cases symbol <;> simp [beginsWithTerminal]

theorem beginsWithTerminal_of_leader?_eq_none {rule : Rule} (hne : rule ≠ [])
    (h : leader? rule = none) : beginsWithTerminal rule = true := by
  cases rule with
  | nil => exact absurd rfl hne
  | cons symbol tail =>
    cases symbol with
    | terminal c => rfl
    | nonterminal name => cases h

/-- What is appended to a rule does not change its first symbol. -/
theorem beginsWithTerminal_append {rule : Rule} (h : beginsWithTerminal rule = true) (rest : Rule) :
    beginsWithTerminal (rule ++ rest) = true := by
  have ⟨c, tail, hrule⟩ := beginsWithTerminal_iff.1 h
  rw [hrule]
  rfl

variable {names more : List Char} {rule : Rule}

/-- The rule begins with a terminal or with one of the names. -/
structure LedWithin (names : List Char) (rule : Rule) : Prop where
  ne_nil : rule ≠ []
  leader_mem : ∀ name, leader? rule = some name → name ∈ names

theorem LedWithin.append (led : LedWithin names rule) (rest : Rule) :
    LedWithin names (rule ++ rest) where
  ne_nil := List.append_ne_nil_of_left_ne_nil led.ne_nil rest
  leader_mem := by
    rw [leader?_append led.ne_nil]
    exact led.leader_mem

/-- More names admit more leaders. -/
theorem LedWithin.mono (led : LedWithin names rule) (subset : names ⊆ more) :
    LedWithin more rule :=
  ⟨led.ne_nil, fun name h ↦ subset (led.leader_mem name h)⟩

end Rule

namespace Grammar

variable {g h : Grammar}

/-- The one nonterminal begins a rule of the other. -/
def Leads (g : Grammar) (leader name : Char) : Prop :=
  ∃ rule ∈ g.rules name, Rule.leader? rule = some leader

/-- Every rule begins with a terminal or a nonterminal of the grammar, and going from leader to leader
comes to an end. -/
structure Grounded (g : Grammar) : Prop where
  nodup : g.names.Nodup
  led : ∀ name, ∀ rule ∈ g.rules name, Rule.LedWithin g.names rule
  wf : WellFounded g.Leads

/-- Each rule of the one grammar is a rule of the other, or arises from one of its rules by replacing the
leader by a rule; each rule of the other is kept or its leader is replaced by every rule. -/
theorem language_eq_of_leaders_replaced
    (sound : ∀ name, ∀ rule ∈ h.rules name, rule ∈ g.rules name ∨
      ∃ leader tail, Symbol.nonterminal leader :: tail ∈ g.rules name ∧
        ∃ source ∈ g.rules leader, rule = source ++ tail)
    (complete : ∀ name, ∀ rule ∈ g.rules name, rule ∈ h.rules name ∨
      ∃ leader tail, rule = Symbol.nonterminal leader :: tail ∧
        ∀ source ∈ h.rules leader, source ++ tail ∈ h.rules name) :
    h.language = g.language := by
  apply le_antisymm
  · apply IsModel.language_le
    intro name rule mem
    rcases sound name rule mem with mem | ⟨leader, tail, hled, source, hsource, hrule⟩
    · exact g.isModel_language name rule mem
    · calc
        _ = Rule.words g.language source * Rule.words g.language tail := by
          rw [hrule, Rule.words_append]
        _ ≤ g.language leader * Rule.words g.language tail :=
          mul_le_mul' (g.isModel_language leader source hsource) le_rfl
        _ = Rule.words g.language (.nonterminal leader :: tail) := by
          rw [Rule.words_cons, Symbol.words]
        _ ≤ g.language name := g.isModel_language name _ hled
  · apply IsModel.language_le
    intro name rule mem
    rcases complete name rule mem with mem | ⟨leader, tail, hrule, hreplaced⟩
    · exact h.isModel_language name rule mem
    · rw [hrule, Rule.words_cons]
      rintro word ⟨left, hleft, right, hright, hword⟩
      obtain ⟨source, hsource, hleft⟩ := mem_language_iff.1 hleft
      apply h.isModel_language name (source ++ tail) (hreplaced source hsource)
      rw [Rule.words_append, ← hword]
      exact Language.append_mem_mul hleft hright

end Grammar

end GrammarForms
