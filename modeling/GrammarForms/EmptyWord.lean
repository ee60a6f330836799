import GrammarForms.Analysis.Nullable

/-!
# The Empty Word

Normal forms have little room for the empty word.  A policy says whether it may stay, as a rule of
the start symbol, and its fate records what became of it.
-/

namespace GrammarForms

inductive EmptyWordPolicy where
  | drop
  | keepAtStart
deriving DecidableEq

def EmptyWordPolicy.ofKeep (keep : Bool) : EmptyWordPolicy :=
  if keep then .keepAtStart else .drop

/-- What became of the empty word; it is absent if the language never had it. -/
inductive EmptyWordFate where
  | absent
  | kept
  | dropped
deriving DecidableEq

namespace EmptyWordFate

def of (startNullable : Bool) (policy : EmptyWordPolicy) : EmptyWordFate :=
  if startNullable then
    match policy with
    | .keepAtStart => kept
    | .drop => dropped
  else absent

def label : EmptyWordFate → String
  | absent => "not_derived"
  | kept => "kept"
  | dropped => "dropped"

end EmptyWordFate

end GrammarForms
