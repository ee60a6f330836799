import GrammarForms.Grammar

/-!
# Derivations and Languages

A step replaces one nonterminal of a sentential form by one of its rules, and a derivation is a
finite run of steps.  The language of a nonterminal consists of the words, all terminals, that it
derives.  These relations say what a grammar means without reference to any algorithm on grammars.
-/

namespace GrammarForms

namespace Grammar

/-- One replacement of a nonterminal by one of its rules. -/
inductive Step (g : Grammar) : Rule → Rule → Prop where
  | replace (before after : Rule) {name : Char} {rule : Rule} (mem : rule ∈ g.rules name) :
      Step g (before ++ .nonterminal name :: after) (before ++ rule ++ after)

/-- A run of zero or more steps. -/
inductive Derives (g : Grammar) : Rule → Rule → Prop where
  | refl (form : Rule) : Derives g form form
  | tail {first middle last : Rule} (run : Derives g first middle) (step : Step g middle last) :
      Derives g first last

def Generates (g : Grammar) (name : Char) (word : List Char) : Prop :=
  g.Derives [.nonterminal name] (word.map .terminal)

/-- The words derived from the start symbol. -/
def Accepts (g : Grammar) (word : List Char) : Prop :=
  g.Generates g.start word

theorem Derives.trans {g : Grammar} {first middle last : Rule} (left : g.Derives first middle)
    (right : g.Derives middle last) : g.Derives first last := by
  induction right with
  | refl => exact left
  | tail _ step ih => exact ih.tail step

/-- Rewriting a symbol does not depend on what stands around it. -/
theorem Step.context {g : Grammar} {form next : Rule} (step : g.Step form next)
    (before after : Rule) : g.Step (before ++ form ++ after) (before ++ next ++ after) := by
  obtain ⟨inner, outer, mem⟩ := step
  simpa using Step.replace (before ++ inner) (outer ++ after) mem

/-- A derivation can be carried out inside any longer sentential form. -/
theorem Derives.context {g : Grammar} {form next : Rule} (run : g.Derives form next)
    (before after : Rule) : g.Derives (before ++ form ++ after) (before ++ next ++ after) := by
  induction run with
  | refl => exact .refl _
  | tail _ step ih => exact ih.tail (step.context before after)

end Grammar

end GrammarForms
