import GrammarForms.Derivation
import GrammarForms.Grammar.Building
import Mathlib.Computability.Language
import Mathlib.Order.CompletePartialOrder

/-!
# Meanings

A meaning gives each nonterminal a language.  It extends to rules, where the words of a rule are the
products of words of its symbols, and it is a model of a grammar if each nonterminal has all the words
of its rules.  The languages of a grammar, `Grammar.language`, form its least model: they are a model,
and they lie below every other one.

Whether two grammars have the same languages is therefore settled without derivations.  It is enough
that the languages of each, suitably extended, are a model of the other.
-/

namespace GrammarForms

/-- A language for each nonterminal. -/
abbrev Meaning := Char → Language Char

def Symbol.words (meaning : Meaning) : Symbol → Language Char
  | .terminal c => {[c]}
  | .nonterminal name => meaning name

@[simp]
theorem Symbol.mem_words_terminal {meaning : Meaning} {c : Char} {word : List Char} :
    word ∈ Symbol.words meaning (.terminal c) ↔ word = [c] := Iff.rfl

/-! ## Words of a rule -/

namespace Rule

variable {meaning larger : Meaning}

def words (meaning : Meaning) (rule : Rule) : Language Char :=
  (rule.map (Symbol.words meaning)).prod

@[simp]
theorem words_nil : words meaning [] = 1 := rfl

@[simp]
theorem words_cons (symbol : Symbol) (rest : Rule) :
    words meaning (symbol :: rest) = symbol.words meaning * words meaning rest := by
  simp [words]

/-- The words of two rules in a row are the products of their words. -/
@[simp]
theorem words_append (first second : Rule) :
    words meaning (first ++ second) = words meaning first * words meaning second := by
  simp [words]

theorem words_nonterminal (name : Char) : words meaning [.nonterminal name] = meaning name := by
  simp [Symbol.words]

theorem mem_words_terminal {c : Char} {word : List Char} :
    word ∈ words meaning [.terminal c] ↔ word = [c] := by
  rw [words_cons, words_nil, mul_one, Symbol.mem_words_terminal]

/-- Only the languages of the nonterminals of a rule matter. -/
theorem words_mono {rule : Rule} (h : ∀ name ∈ nonterminals rule, meaning name ≤ larger name) :
    words meaning rule ≤ words larger rule := by
  induction rule with
  | nil => exact le_rfl
  | cons symbol rest ih =>
    have hrest : words meaning rest ≤ words larger rest := ih fun name hname ↦
      h name (mem_nonterminals_cons_of_mem symbol hname)
    have hsymbol : symbol.words meaning ≤ symbol.words larger := by
      cases symbol with
      | terminal c => exact le_rfl
      | nonterminal name => exact h name (mem_nonterminals_cons_self name rest)
    rw [words_cons, words_cons]
    exact mul_le_mul' hsymbol hrest

theorem words_congr {rule : Rule} (h : ∀ name ∈ nonterminals rule, meaning name = larger name) :
    words meaning rule = words larger rule :=
  le_antisymm (words_mono fun name hname ↦ (h name hname).le)
    (words_mono fun name hname ↦ (h name hname).ge)

theorem words_le_words (h : meaning ≤ larger) (rule : Rule) :
    words meaning rule ≤ words larger rule :=
  words_mono fun name _ ↦ h name

@[simp]
theorem words_terminals (word : List Char) :
    words meaning (word.map .terminal) = ({word} : Set (List Char)) := by
  induction word with
  | nil => rfl
  | cons c rest ih =>
    rw [List.map_cons, words_cons, ih]
    exact Set.image2_singleton

/-- A rule has the empty word exactly if it is made of nonterminals that have it. -/
theorem nil_mem_words {rule : Rule} :
    [] ∈ words meaning rule ↔
      ∀ symbol ∈ rule, ∃ name, symbol = .nonterminal name ∧ [] ∈ meaning name := by
  induction rule with
  | nil => simp
  | cons symbol rest ih =>
    have hsymbol : [] ∈ symbol.words meaning ↔
        ∃ name, symbol = .nonterminal name ∧ [] ∈ meaning name := by
      cases symbol with
      | terminal c => simp
      | nonterminal name => simp [Symbol.words]
    rw [words_cons, Language.mem_mul, List.forall_mem_cons, ← hsymbol, ← ih]
    constructor
    · rintro ⟨left, hleft, right, hright, happend⟩
      obtain ⟨rfl, rfl⟩ := List.append_eq_nil_iff.1 happend
      exact ⟨hleft, hright⟩
    · exact fun h ↦ ⟨[], h.1, [], h.2, rfl⟩

/-- A rule has a word exactly if each of its nonterminals has one. -/
theorem exists_mem_words {rule : Rule} :
    (∃ word, word ∈ words meaning rule) ↔
      ∀ name ∈ nonterminals rule, ∃ word, word ∈ meaning name := by
  induction rule with
  | nil => simp [nonterminals]
  | cons symbol rest ih =>
    have hcons : (∃ word, word ∈ words meaning (symbol :: rest)) ↔
        (∃ word, word ∈ symbol.words meaning) ∧ ∃ word, word ∈ words meaning rest := by
      rw [words_cons]
      constructor
      · rintro ⟨_, left, hleft, right, hright, rfl⟩
        exact ⟨⟨left, hleft⟩, right, hright⟩
      · rintro ⟨⟨left, hleft⟩, right, hright⟩
        exact ⟨_, Language.append_mem_mul hleft hright⟩
    rw [hcons, ih]
    cases symbol with
    | terminal c =>
      simp [nonterminals, Symbol.nonterminal?]
    | nonterminal name => simp [nonterminals, Symbol.nonterminal?, Symbol.words]

end Rule

/-! ## Models -/

namespace Grammar

variable {g h : Grammar} {meaning : Meaning}

/-- Every rule has only words that its nonterminal has too. -/
def IsModel (g : Grammar) (meaning : Meaning) : Prop :=
  ∀ name, ∀ rule ∈ g.rules name, Rule.words meaning rule ≤ meaning name

def language (g : Grammar) : Meaning := fun name ↦ {word | g.Generates name word}

/-- In a model of the rules, rewriting never adds a word. -/
theorem IsModel.words_le_of_derives (model : g.IsModel meaning) {form next : Rule}
    (run : g.Derives form next) : Rule.words meaning next ≤ Rule.words meaning form := by
  induction run with
  | refl => exact le_rfl
  | tail _ step ih =>
    obtain ⟨before, after, mem⟩ := step
    refine le_trans ?_ ih
    rw [List.append_assoc, Rule.words_append, Rule.words_append, Rule.words_append, Rule.words_cons]
    exact mul_le_mul' le_rfl (mul_le_mul' (model _ _ mem) le_rfl)

/-- The languages of a grammar lie below each of its models. -/
theorem IsModel.language_le (model : g.IsModel meaning) : g.language ≤ meaning := by
  intro name word hword
  have h := model.words_le_of_derives hword
  rw [Rule.words_terminals, Rule.words_nonterminal] at h
  exact h rfl

/-- The derivations of the symbols of a form can be run side by side. -/
theorem derives_of_mem_words {form : Rule} {word : List Char}
    (h : word ∈ Rule.words g.language form) : g.Derives form (word.map .terminal) := by
  induction form generalizing word with
  | nil =>
    have hnil : word = [] := h
    subst hnil
    exact .refl _
  | cons symbol rest ih =>
    rw [Rule.words_cons] at h
    obtain ⟨left, hleft, right, hright, rfl⟩ := h
    have hrest : g.Derives (symbol :: rest) (symbol :: right.map .terminal) := by
      simpa using (ih hright).context [symbol] []
    have hsymbol : g.Derives [symbol] (left.map .terminal) := by
      cases symbol with
      | terminal c =>
        have hword : left = [c] := hleft
        subst hword
        exact .refl _
      | nonterminal name => exact hleft
    apply hrest.trans
    simpa using hsymbol.context [] (right.map .terminal)

theorem step_nonterminal_iff {name : Char} {next : Rule} :
    g.Step [.nonterminal name] next ↔ next ∈ g.rules name := by
  constructor
  · intro step
    generalize hform : [Symbol.nonterminal name] = form at step
    obtain ⟨before, after, mem⟩ := step
    rcases List.append_eq_singleton_iff.1 hform.symm with ⟨rfl, hname⟩ | ⟨_, hnil⟩
    · obtain ⟨e, rfl⟩ := List.cons_eq_cons.1 hname
      rw [List.nil_append, List.append_nil]
      exact Symbol.nonterminal.inj e ▸ mem
    · cases hnil
  · intro mem
    simpa using Step.replace [] [] mem

/-- The languages of a grammar satisfy its own rules. -/
theorem isModel_language (g : Grammar) : g.IsModel g.language := by
  intro name rule mem word hword
  exact ((Derives.refl _).tail (step_nonterminal_iff.2 mem)).trans (derives_of_mem_words hword)

/-- The words of a sentential form are those it derives. -/
theorem mem_words_language {form : Rule} {word : List Char} :
    word ∈ Rule.words g.language form ↔ g.Derives form (word.map .terminal) := by
  refine ⟨derives_of_mem_words, fun run ↦ ?_⟩
  apply g.isModel_language.words_le_of_derives run
  rw [Rule.words_terminals]
  exact Set.mem_singleton word

/-- A nonterminal has no words but those of its rules. -/
theorem mem_language_iff {name : Char} {word : List Char} :
    word ∈ g.language name ↔ ∃ rule ∈ g.rules name, word ∈ Rule.words g.language rule := by
  refine ⟨fun h ↦ ?_, fun ⟨rule, mem, hword⟩ ↦ g.isModel_language name rule mem hword⟩
  let ruled : Meaning := fun name ↦ {word | ∃ rule ∈ g.rules name, word ∈ Rule.words g.language rule}
  have hle : ruled ≤ g.language := fun name word ⟨rule, mem, hword⟩ ↦
    g.isModel_language name rule mem hword
  have model : g.IsModel ruled := fun name rule mem word hword ↦
    ⟨rule, mem, Rule.words_le_words hle rule hword⟩
  exact model.language_le name h

/-- The grammar accepts the language of its start symbol. -/
theorem accepts_iff {word : List Char} : g.Accepts word ↔ word ∈ g.language g.start := Iff.rfl

/-- More rules give more words. -/
theorem language_le_of_rules_subset (subset : ∀ name, g.rules name ⊆ h.rules name) :
    g.language ≤ h.language :=
  IsModel.language_le fun name rule mem ↦ h.isModel_language name rule (subset name mem)

/-- Rules without words can be left out. -/
theorem language_eq_of_wordless (subset : ∀ name, h.rules name ⊆ g.rules name)
    (wordless : ∀ name, ∀ rule ∈ g.rules name, rule ∈ h.rules name ∨
      ∀ word, word ∉ Rule.words g.language rule) :
    h.language = g.language := by
  have hle := language_le_of_rules_subset subset
  refine le_antisymm hle (IsModel.language_le fun name rule mem ↦ ?_)
  rcases wordless name rule mem with mem | wordless
  · exact h.isModel_language name rule mem
  · exact fun word hword ↦ absurd (Rule.words_le_words hle rule hword) (wordless word)

end Grammar

end GrammarForms
