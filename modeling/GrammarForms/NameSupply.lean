import GrammarForms.Error
import GrammarForms.Grammar

/-!
# Supplies of Fresh Names

A fresh nonterminal is the first letter of the alphabet that is not taken.  A name that was given
out stays taken, also where the transformation that asked for it fails later on; `Naming` therefore
returns the supply together with either outcome.
-/

namespace GrammarForms

structure NameSupply where
  taken : List Char
deriving DecidableEq

/-- Computations that may run out of fresh names. -/
abbrev Naming (α : Type) :=
  ExceptT GrammarError (StateM NameSupply) α

namespace NameSupply

def letters : List Char :=
  ['A', 'B', 'C', 'D', 'E', 'F', 'G', 'H', 'I', 'J', 'K', 'L', 'M',
    'N', 'O', 'P', 'Q', 'R', 'S', 'T', 'U', 'V', 'W', 'X', 'Y', 'Z']

def avoiding (g : Grammar) : NameSupply :=
  ⟨g.names⟩

def free (supply : NameSupply) : List Char :=
  letters.filter fun letter ↦ !supply.taken.contains letter

def remaining (supply : NameSupply) : Nat :=
  supply.free.length

def fresh (neededFor : String) : Naming Char := ExceptT.mk fun supply ↦
  match supply.free with
  | [] => (.error (.outOfNames neededFor), supply)
  | name :: _ => (.ok name, ⟨name :: supply.taken⟩)

/-- A request on an exhausted supply fails and leaves the supply as it was. -/
theorem fresh_run_of_free_eq_nil {supply : NameSupply} (h : supply.free = [])
    (neededFor : String) :
    (fresh neededFor).run.run supply = (.error (.outOfNames neededFor), supply) := by
  simp [fresh, StateT.run, h]

/-- A successful request gives the first free letter and marks it taken. -/
theorem fresh_run_of_free_eq_cons {supply : NameSupply} {name : Char} {rest : List Char}
    (h : supply.free = name :: rest) (neededFor : String) :
    (fresh neededFor).run.run supply = (.ok name, ⟨name :: supply.taken⟩) := by
  simp [fresh, StateT.run, h]

end NameSupply

/-- The outcome with a supply that has just the names of a grammar taken. -/
def Naming.evalFor {α : Type} (g : Grammar) (naming : Naming α) : Except GrammarError α :=
  (naming.run.run (.avoiding g)).1

end GrammarForms
