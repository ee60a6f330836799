import GrammarForms.Elimination.LeftRecursion
import GrammarForms.Proofs.Leaders
import Mathlib.Algebra.Order.Kleene

/-!
# Repetition in Place of Left Recursion

The words of a directly left recursive nonterminal are words of its other rules followed by any number
of words of its recursive tails.  A repeater, whose words are such sequences of tails, thus takes over
the recursion.  It is recursive on the right and the nonterminal was recursive on the left; that the two
agree is the law of the Kleene star on the one side.  On the other side it is the closure of the
repeater's words under one more tail at their end, which is a model argument again.
-/

open scoped Computability

namespace GrammarForms

variable {stop : RepetitionStop} {repeater : Char} {rule : Rule}

theorem RepetitionStop.mem_repeated {sources : List Rule} :
    rule ∈ stop.repeated repeater sources ↔ ∃ source ∈ sources,
      rule = source ++ [.nonterminal repeater] ∨ stop = .withoutRepeater ∧ rule = source := by
  rw [repeated, mem_distinct, List.mem_flatMap]
  apply exists_congr
  intro source
  cases stop with
  | emptyRule => simp
  | withoutRepeater => simp [or_comm]

theorem RepetitionStop.mem_repeaterRules {tails : List Rule} :
    rule ∈ stop.repeaterRules repeater tails ↔
      rule ∈ stop.repeated repeater tails ∨ stop = .emptyRule ∧ rule = [] := by
  cases stop with
  | emptyRule => simp [repeaterRules]
  | withoutRepeater => simp [repeaterRules]

/-! ## Rules of an entry -/

namespace Entry

variable {entry : Entry}

/-- A recursive tail is what follows the nonterminal in a rule of its own that it leads. -/
theorem mem_recursiveTails {tail : Rule} :
    tail ∈ entry.recursiveTails ↔ .nonterminal entry.name :: tail ∈ entry.rules ∧ tail ≠ [] := by
  rw [recursiveTails, List.mem_filter, List.mem_map]
  apply and_congr
  · constructor
    · intro ⟨rule, hrule, htail⟩
      have ⟨mem, hleader⟩ := List.mem_filter.1 hrule
      have ⟨_, hcons⟩ := Rule.leader?_eq_some.1 (beq_iff_eq.1 hleader)
      rw [hcons] at mem htail
      rwa [← htail]
    · intro mem
      exact ⟨_, List.mem_filter.2 ⟨mem, by simp⟩, rfl⟩
  · simp

theorem mem_otherRules :
    rule ∈ entry.otherRules ↔ rule ∈ entry.rules ∧ Rule.leader? rule ≠ some entry.name := by
  simp [otherRules]

/-- A rule is recursive or not, and a rule that is nothing but the name is the only one that adds no
tail. -/
theorem mem_rules_cases (mem : rule ∈ entry.rules) :
    rule ∈ entry.otherRules ∨ rule = [.nonterminal entry.name] ∨
      ∃ tail ∈ entry.recursiveTails, rule = .nonterminal entry.name :: tail := by
  by_cases hleader : Rule.leader? rule = some entry.name
  · have ⟨tail, hrule⟩ := Rule.leader?_eq_some.1 hleader
    right
    by_cases htail : tail = []
    · exact Or.inl (htail ▸ hrule)
    · exact Or.inr ⟨tail, mem_recursiveTails.2 ⟨hrule ▸ mem, htail⟩, hrule⟩
  · exact Or.inl (mem_otherRules.2 ⟨mem, hleader⟩)

/-- What a recursive rule of the entry adds to a word. -/
def loop (entry : Entry) (meaning : Meaning) : Language Char :=
  {word | ∃ tail ∈ entry.recursiveTails, word ∈ Rule.words meaning tail}

theorem words_le_loop {meaning : Meaning} {tail : Rule} (mem : tail ∈ entry.recursiveTails) :
    Rule.words meaning tail ≤ entry.loop meaning := fun _ hword ↦ ⟨tail, mem, hword⟩

end Entry

/-! ## The two grammars -/

namespace Grammar

/-- A word of the repeater can follow whatever stands before the repeater. -/
theorem append_mem_language_of_repeated {h : Grammar} {name : Char} {sources : List Rule} {source : Rule}
    {left right : List Char} (subset : stop.repeated repeater sources ⊆ h.rules name)
    (mem : source ∈ sources) (hleft : left ∈ Rule.words h.language source)
    (hright : right ∈ h.language repeater) : left ++ right ∈ h.language name := by
  have hrule := subset (RepetitionStop.mem_repeated.2 ⟨source, mem, Or.inl rfl⟩)
  apply h.isModel_language name _ hrule
  rw [Rule.words_append, Rule.words_nonterminal]
  exact Language.append_mem_mul hleft hright

/-- A repeater that was nowhere in sight takes over the left recursion of one entry. -/
structure Unrolls (h g : Grammar) (stop : RepetitionStop) (entry : Entry) (repeater : Char) :
    Prop where
  ne : repeater ≠ entry.name
  rules_entry : g.rules entry.name = entry.rules
  rules_unrolled : h.rules entry.name = stop.repeated repeater entry.otherRules
  rules_repeater : h.rules repeater = stop.repeaterRules repeater entry.recursiveTails
  rules_other : ∀ name, name ≠ entry.name → name ≠ repeater → h.rules name = g.rules name
  unused : g.rules repeater = []
  unmentioned : ∀ name, ∀ rule ∈ g.rules name, repeater ∉ Rule.nonterminals rule

/-- The languages of a grammar, with all sequences of tails for the words of the repeater. -/
def starred (g : Grammar) (entry : Entry) (repeater : Char) : Meaning :=
  Function.update g.language repeater (entry.loop g.language)∗

/-- The repeater is read as any number of turns of the loop. -/
theorem starred_self {g : Grammar} {entry : Entry} :
    starred g entry repeater repeater = (entry.loop g.language)∗ :=
  Function.update_self repeater _ g.language

theorem starred_of_ne {g : Grammar} {entry : Entry} {name : Char} (h : name ≠ repeater) :
    starred g entry repeater name = g.language name :=
  Function.update_of_ne h _ g.language

theorem words_starred {g : Grammar} {entry : Entry} (hrepeater : repeater ∉ Rule.nonterminals rule) :
    Rule.words (starred g entry repeater) rule = Rule.words g.language rule := by
  apply Rule.words_congr
  intro name hname
  apply Function.update_of_ne
  intro e
  exact hrepeater (e ▸ hname)

/-- The words of the repeater that a tail can follow. -/
def extendable (h : Grammar) (entry : Entry) (repeater : Char) : Language Char :=
  {word | word ∈ h.language repeater ∧ ∀ last ∈ entry.loop h.language, word ++ last ∈ h.language repeater}

/-- The words that can be followed by turns of the loop are words of the repeater. -/
theorem update_extendable_le {h : Grammar} {entry : Entry} :
    Function.update h.language repeater (extendable h entry repeater) ≤ h.language := by
  intro name
  by_cases hname : name = repeater
  · subst hname
    rw [Function.update_self]
    exact fun _ hword ↦ hword.1
  · rw [Function.update_of_ne hname]

namespace Unrolls

variable {g h : Grammar} {entry : Entry} (unrolls : h.Unrolls g stop entry repeater)
include unrolls

theorem unmentioned_of_mem_recursiveTails {tail : Rule} (mem : tail ∈ entry.recursiveTails) :
    repeater ∉ Rule.nonterminals tail := by
  intro hmentioned
  have hrule := (Entry.mem_recursiveTails.1 mem).1
  rw [← unrolls.rules_entry] at hrule
  exact unrolls.unmentioned _ _ hrule (Rule.mem_nonterminals_cons_of_mem _ hmentioned)

/-! ### From the repeater to left recursion -/

/-- In the old grammar a turn of the loop can be put behind any word. -/
theorem language_mul_loop_le :
    g.language entry.name * entry.loop g.language ≤ g.language entry.name := by
  intro word ⟨left, hleft, right, ⟨tail, htail, hright⟩, hword⟩
  have hrule := (Entry.mem_recursiveTails.1 htail).1
  rw [← unrolls.rules_entry] at hrule
  apply g.isModel_language entry.name _ hrule
  rw [Rule.words_cons, ← hword]
  exact Language.append_mem_mul hleft hright

/-- Every rule of the repeater is some turns of the loop. -/
theorem words_starred_le_kstar (mem : rule ∈ h.rules repeater) :
    Rule.words (starred g entry repeater) rule ≤ (entry.loop g.language)∗ := by
  rw [unrolls.rules_repeater, RepetitionStop.mem_repeaterRules] at mem
  rcases mem with mem | ⟨_, hnil⟩
  · have ⟨tail, htail, hrule⟩ := RepetitionStop.mem_repeated.1 mem
    have hloop : Rule.words g.language tail ≤ entry.loop g.language := Entry.words_le_loop htail
    rw [← words_starred (unrolls.unmentioned_of_mem_recursiveTails htail)] at hloop
    rcases hrule with hrule | ⟨_, hrule⟩
    · calc
        _ = Rule.words (starred g entry repeater) tail * (entry.loop g.language)∗ := by
          rw [hrule, Rule.words_append, Rule.words_nonterminal, starred_self]
        _ ≤ entry.loop g.language * (entry.loop g.language)∗ := mul_le_mul' hloop le_rfl
        _ ≤ (entry.loop g.language)∗ := mul_kstar_le_kstar
    · rw [hrule]
      exact hloop.trans le_kstar
  · rw [hnil, Rule.words_nil]
    exact one_le_kstar

/-- Every new rule of the nonterminal is an old one followed by turns of the loop. -/
theorem words_starred_le_language (mem : rule ∈ h.rules entry.name) :
    Rule.words (starred g entry repeater) rule ≤ g.language entry.name := by
  rw [unrolls.rules_unrolled] at mem
  have ⟨source, hsource, hrule⟩ := RepetitionStop.mem_repeated.1 mem
  have hsource := (Entry.mem_otherRules.1 hsource).1
  rw [← unrolls.rules_entry] at hsource
  have hle := g.isModel_language entry.name source hsource
  rw [← words_starred (unrolls.unmentioned _ _ hsource)] at hle
  rcases hrule with hrule | ⟨_, hrule⟩
  · calc
      _ = Rule.words (starred g entry repeater) source * (entry.loop g.language)∗ := by
        rw [hrule, Rule.words_append, Rule.words_nonterminal, starred_self]
      _ ≤ g.language entry.name := mul_kstar_le hle unrolls.language_mul_loop_le
  · rwa [hrule]

/-- Reading the repeater as repeated turns of the loop satisfies the new rules. -/
theorem isModel_starred : h.IsModel (starred g entry repeater) := by
  intro name rule mem
  by_cases hrepeater : name = repeater
  · subst hrepeater
    rw [starred_self]
    exact unrolls.words_starred_le_kstar mem
  · rw [starred_of_ne hrepeater]
    by_cases hname : name = entry.name
    · subst hname
      exact unrolls.words_starred_le_language mem
    · rw [unrolls.rules_other name hname hrepeater] at mem
      rw [words_starred (unrolls.unmentioned name rule mem)]
      exact g.isModel_language name rule mem

/-! ### From left recursion to the repeater -/

/-- The repetition may stop at once, either way of stopping. -/
theorem words_le_language {name : Char} {sources : List Rule} {source : Rule}
    (subset : stop.repeated repeater sources ⊆ h.rules name) (mem : source ∈ sources) :
    Rule.words h.language source ≤ h.language name := by
  cases stop with
  | withoutRepeater =>
    apply h.isModel_language name
    exact subset (RepetitionStop.mem_repeated.2 ⟨source, mem, Or.inr ⟨rfl, rfl⟩⟩)
  | emptyRule =>
    have hrule : [] ∈ h.rules repeater := by
      rw [unrolls.rules_repeater, RepetitionStop.mem_repeaterRules]
      exact Or.inr ⟨rfl, rfl⟩
    have hnil : [] ∈ h.language repeater := h.isModel_language repeater [] hrule rfl
    intro word hword
    rw [← List.append_nil word]
    exact append_mem_language_of_repeated subset mem hword hnil

theorem repeated_subset_repeater :
    stop.repeated repeater entry.recursiveTails ⊆ h.rules repeater := by
  intro rule mem
  rw [unrolls.rules_repeater, RepetitionStop.mem_repeaterRules]
  exact Or.inl mem

/-- One turn of the loop is a word of the repeater, whatever ends the repetition. -/
theorem loop_le_repeater : entry.loop h.language ≤ h.language repeater := by
  intro word ⟨tail, htail, hword⟩
  exact unrolls.words_le_language unrolls.repeated_subset_repeater htail hword

/-- A tail can follow what a rule of the repeater yields if one can follow the repeater in it. -/
theorem append_mem_of_mem_rules (mem : rule ∈ h.rules repeater) {word last : List Char}
    (hword : word ∈ Rule.words (Function.update h.language repeater (extendable h entry repeater)) rule)
    (hlast : last ∈ entry.loop h.language) : word ++ last ∈ h.language repeater := by
  have hle : Function.update h.language repeater (extendable h entry repeater) ≤ h.language :=
    update_extendable_le
  rw [unrolls.rules_repeater, RepetitionStop.mem_repeaterRules] at mem
  rcases mem with mem | ⟨_, hnil⟩
  · have ⟨tail, htail, hrule⟩ := RepetitionStop.mem_repeated.1 mem
    rcases hrule with hrule | ⟨_, hrule⟩
    · rw [hrule, Rule.words_append, Rule.words_nonterminal, Function.update_self] at hword
      have ⟨left, hleft, right, hright, happend⟩ := hword
      rw [← happend, List.append_assoc]
      exact append_mem_language_of_repeated unrolls.repeated_subset_repeater htail
        (Rule.words_le_words hle tail hleft) (hright.2 last hlast)
    · rw [hrule] at hword
      exact append_mem_language_of_repeated unrolls.repeated_subset_repeater htail
        (Rule.words_le_words hle tail hword) (unrolls.loop_le_repeater hlast)
  · rw [hnil] at hword
    have hword : word = [] := hword
    rw [hword]
    exact unrolls.loop_le_repeater hlast

/-- One more tail can follow every word of the repeater. -/
theorem repeater_mul_loop_le :
    h.language repeater * entry.loop h.language ≤ h.language repeater := by
  have model : h.IsModel
      (Function.update h.language repeater (extendable h entry repeater)) := by
    intro name rule mem word hword
    have hlanguage := h.isModel_language name rule mem
      (Rule.words_le_words update_extendable_le rule hword)
    by_cases hname : name = repeater
    · subst hname
      rw [Function.update_self]
      exact ⟨hlanguage, fun last hlast ↦ unrolls.append_mem_of_mem_rules mem hword hlast⟩
    · rwa [Function.update_of_ne hname]
  intro word ⟨left, hleft, right, hright, hword⟩
  have hextendable := model.language_le repeater hleft
  rw [Function.update_self] at hextendable
  rw [← hword]
  exact hextendable.2 right hright

/-- In the new grammar, too, a turn of the loop can be put behind any word. -/
theorem unrolled_mul_loop_le :
    h.language entry.name * entry.loop h.language ≤ h.language entry.name := by
  intro word ⟨left, hleft, last, hlast, hword⟩
  have ⟨rule, mem, hleft⟩ := mem_language_iff.1 hleft
  rw [unrolls.rules_unrolled] at mem
  have subset : stop.repeated repeater entry.otherRules ⊆ h.rules entry.name :=
    unrolls.rules_unrolled ▸ List.Subset.refl _
  have ⟨source, hsource, hrule⟩ := RepetitionStop.mem_repeated.1 mem
  rcases hrule with hrule | ⟨_, hrule⟩
  · rw [hrule, Rule.words_append, Rule.words_nonterminal] at hleft
    have ⟨first, hfirst, right, hright, happend⟩ := hleft
    have hmul := unrolls.repeater_mul_loop_le (Language.append_mem_mul hright hlast)
    rw [← hword, ← happend]
    change first ++ right ++ last ∈ _
    rw [List.append_assoc]
    exact append_mem_language_of_repeated subset hsource hfirst hmul
  · rw [hrule] at hleft
    rw [← hword]
    exact append_mem_language_of_repeated subset hsource hleft (unrolls.loop_le_repeater hlast)

/-- The languages of the new grammar satisfy the old, left-recursive rules. -/
theorem isModel_unrolled : g.IsModel h.language := by
  intro name rule mem
  by_cases hname : name = entry.name
  · subst hname
    rw [unrolls.rules_entry] at mem
    rcases Entry.mem_rules_cases mem with hother | hself | ⟨tail, htail, hrule⟩
    · exact unrolls.words_le_language (unrolls.rules_unrolled ▸ List.Subset.refl _) hother
    · rw [hself, Rule.words_nonterminal]
    · calc
        _ = h.language entry.name * Rule.words h.language tail := by
          rw [hrule, Rule.words_cons, Symbol.words]
        _ ≤ h.language entry.name * entry.loop h.language :=
          mul_le_mul' le_rfl (Entry.words_le_loop htail)
        _ ≤ h.language entry.name := unrolls.unrolled_mul_loop_le
  · have hrepeater : name ≠ repeater := by
      intro e
      rw [e, unrolls.unused] at mem
      cases mem
    rw [← unrolls.rules_other name hname hrepeater] at mem
    exact h.isModel_language name rule mem

/-- Every nonterminal but the repeater keeps its language. -/
theorem language_eq {name : Char} (hname : name ≠ repeater) : h.language name = g.language name := by
  apply le_antisymm
  · have hle := unrolls.isModel_starred.language_le name
    rwa [starred_of_ne hname] at hle
  · exact unrolls.isModel_unrolled.language_le name

end Unrolls

end Grammar

end GrammarForms
