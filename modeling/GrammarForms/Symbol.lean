/-!
# Symbols and Rules

A symbol is a terminal or a nonterminal, and a rule is one alternative of a nonterminal: the
symbols that replace it.  The rule without symbols stands for the empty word.  Symbols are
ordered with every terminal before every nonterminal and by code point within each kind; rules are
ordered lexicographically, so a rule comes after every rule it extends.
-/

namespace GrammarForms

inductive Symbol where
  | terminal (char : Char)
  | nonterminal (name : Char)
deriving DecidableEq

namespace Symbol

/-- The character that stands for the symbol in a text, whatever its kind. -/
def char : Symbol → Char
  | .terminal c => c
  | .nonterminal name => name

def nonterminal? : Symbol → Option Char
  | .terminal _ => none
  | .nonterminal name => some name

/-- Positions of the symbols in their order: nonterminals begin after the last code point. -/
def rank : Symbol → Nat
  | .terminal c => c.toNat
  | .nonterminal name => 0x110000 + name.toNat

@[simp]
theorem nonterminal?_eq_some {symbol : Symbol} {name : Char} :
    symbol.nonterminal? = some name ↔ symbol = .nonterminal name := by
  cases symbol <;> simp [nonterminal?]

end Symbol

abbrev Rule := List Symbol

/-- A rule together with the nonterminal it belongs to. -/
structure Production where
  left : Char
  right : Rule
deriving DecidableEq

namespace Rule

/-- The nonterminals of a rule, repeats included. -/
def nonterminals (rule : Rule) : List Char :=
  rule.filterMap Symbol.nonterminal?

/-- The nonterminal a unit rule leads to; a unit rule is a single nonterminal. -/
def soleNonterminal? : Rule → Option Char
  | [.nonterminal name] => some name
  | _ => none

/-- The nonterminal a rule begins with. -/
def leader? (rule : Rule) : Option Char :=
  rule.head?.bind Symbol.nonterminal?

def beginsWithTerminal : Rule → Bool
  | .terminal _ :: _ => true
  | _ => false

def mentionsAny (names : List Char) (rule : Rule) : Bool :=
  (nonterminals rule).any (names.contains ·)

/-- The written form of a rule; the empty rule is written as one Greek letter. -/
def text (rule : Rule) : String :=
  if rule.isEmpty then "ε" else String.ofList (rule.map Symbol.char)

/-- Lexicographic order of rules; each rule precedes itself. -/
def precedes : Rule → Rule → Bool
  | [], _ => true
  | _ :: _, [] => false
  | symbol :: rest, other :: others =>
    symbol.rank < other.rank || symbol == other && precedes rest others

@[simp]
theorem mem_nonterminals {rule : Rule} {name : Char} :
    name ∈ nonterminals rule ↔ Symbol.nonterminal name ∈ rule := by
  simp [nonterminals]

theorem mem_nonterminals_cons_self (name : Char) (rest : Rule) :
    name ∈ nonterminals (.nonterminal name :: rest) :=
  mem_nonterminals.2 List.mem_cons_self

theorem mem_nonterminals_cons_of_mem (symbol : Symbol) {rest : Rule} {name : Char}
    (h : name ∈ nonterminals rest) : name ∈ nonterminals (symbol :: rest) :=
  mem_nonterminals.2 (List.mem_cons_of_mem symbol (mem_nonterminals.1 h))

/-- A unit rule consists of one nonterminal and nothing else. -/
@[simp]
theorem soleNonterminal?_eq_some {rule : Rule} {name : Char} :
    soleNonterminal? rule = some name ↔ rule = [.nonterminal name] := by
  unfold soleNonterminal?
  split <;> simp_all

theorem soleNonterminal?_eq_none_iff {rule : Rule} :
    soleNonterminal? rule = none ↔ ∀ name, rule ≠ [.nonterminal name] := by
  simp [Option.eq_none_iff_forall_ne_some]

/-- A rule shorter than two symbols that is no unit rule is empty or a single terminal. -/
theorem eq_nil_or_terminal_of_length_lt {rule : Rule} (hlength : rule.length < 2)
    (hunit : soleNonterminal? rule = none) : rule = [] ∨ ∃ c, rule = [.terminal c] := by
  match rule with
  | [] => exact Or.inl rfl
  | [.terminal c] => exact Or.inr ⟨c, rfl⟩
  | [.nonterminal name] => cases hunit
  | _ :: _ :: rest =>
    simp only [List.length_cons] at hlength
    omega

end Rule

end GrammarForms
