import GrammarForms.Proofs.Meaning

/-!
# Unfolding Auxiliary Nonterminals

A transformation may introduce nonterminals that merely stand for a rule.  Unfolding puts that rule in
their place again.  If unfolding turns the rules of the new grammar back into rules of the old one, and
the rules of an auxiliary nonterminal into what it stands for, then the new grammar has no words that
the old one does not have.
-/

namespace GrammarForms

/-- A list of pairs with different first components finds each of its pairs. -/
theorem lookup_eq_some_of_mem {α : Type} {pairs : List (Char × α)} (nodup : (pairs.map Prod.fst).Nodup)
    {key : Char} {value : α} (h : (key, value) ∈ pairs) : pairs.lookup key = some value := by
  induction pairs with
  | nil => simp at h
  | cons first rest ih =>
    rw [List.map_cons, List.nodup_cons] at nodup
    rcases List.mem_cons.1 h with rfl | h
    · exact List.lookup_cons_self
    · have hne : key ≠ first.1 := fun e ↦ nodup.1 (e ▸ List.mem_map_of_mem h)
      have hbeq : (key == first.1) = false := beq_false_of_ne hne
      rw [List.lookup_cons, hbeq]
      exact ih nodup.2 h

theorem mem_of_lookup_eq_some {α : Type} {pairs : List (Char × α)} {key : Char} {value : α}
    (h : pairs.lookup key = some value) : (key, value) ∈ pairs := by
  have ⟨before, after, hpairs, _⟩ := List.lookup_eq_some_iff.1 h
  rw [hpairs]
  exact List.mem_append_right before List.mem_cons_self

namespace Rule

variable {image : Char → Rule} {meaning : Meaning}

/-- Puts its image in the place of each nonterminal. -/
def unfold (image : Char → Rule) (rule : Rule) : Rule :=
  rule.flatMap fun symbol ↦
    match symbol with
    | .terminal _ => [symbol]
    | .nonterminal name => image name

@[simp]
theorem unfold_nil : unfold image [] = [] := rfl

@[simp]
theorem unfold_terminal_cons (c : Char) (rest : Rule) :
    unfold image (.terminal c :: rest) = .terminal c :: unfold image rest := rfl

@[simp]
theorem unfold_nonterminal_cons (name : Char) (rest : Rule) :
    unfold image (.nonterminal name :: rest) = image name ++ unfold image rest := rfl

theorem unfold_eq_self {rule : Rule}
    (h : ∀ name ∈ nonterminals rule, image name = [.nonterminal name]) :
    unfold image rule = rule := by
  induction rule with
  | nil => rfl
  | cons symbol rest ih =>
    have hrest : unfold image rest = rest := ih fun name hname ↦
      h name (mem_nonterminals_cons_of_mem symbol hname)
    cases symbol with
    | terminal c => rw [unfold_terminal_cons, hrest]
    | nonterminal name =>
      rw [unfold_nonterminal_cons, h name (mem_nonterminals_cons_self name rest), hrest]
      rfl

/-- Unfolding works symbol by symbol. -/
theorem unfold_append (rule rest : Rule) :
    unfold image (rule ++ rest) = unfold image rule ++ unfold image rest :=
  List.flatMap_append

/-- Unfolding twice is unfolding once by images that are unfolded themselves. -/
theorem unfold_unfold (next : Char → Rule) (rule : Rule) :
    unfold image (unfold next rule) = unfold (fun name ↦ unfold image (next name)) rule := by
  induction rule with
  | nil => rfl
  | cons symbol rest ih =>
    cases symbol with
    | terminal c => rw [unfold_terminal_cons, unfold_terminal_cons, unfold_terminal_cons, ih]
    | nonterminal name => rw [unfold_nonterminal_cons, unfold_append, unfold_nonterminal_cons, ih]

theorem mem_nonterminals_unfold {rule : Rule} {name : Char} (h : name ∈ nonterminals (unfold image rule)) :
    ∃ other ∈ nonterminals rule, name ∈ nonterminals (image other) := by
  have ⟨symbol, hsymbol, hname⟩ := List.mem_flatMap.1 (mem_nonterminals.1 h)
  cases symbol with
  | terminal c => cases List.mem_singleton.1 hname
  | nonterminal other => exact ⟨other, mem_nonterminals.2 hsymbol, mem_nonterminals.2 hname⟩

/-- A rule unfolded has the words of the rule with each name read as its image. -/
theorem words_unfold (rule : Rule) :
    words meaning (unfold image rule) = words (fun name ↦ words meaning (image name)) rule := by
  induction rule with
  | nil => rfl
  | cons symbol rest ih =>
    cases symbol with
    | terminal c => rw [unfold_terminal_cons, words_cons, words_cons, ih]; rfl
    | nonterminal name => rw [unfold_nonterminal_cons, words_append, words_cons, ih]; rfl

/-! ### Unfolding again and again -/

theorem length_le_length_unfold (hne : ∀ name, image name ≠ []) (rule : Rule) :
    rule.length ≤ (unfold image rule).length := by
  induction rule with
  | nil => exact Nat.zero_le _
  | cons symbol rest ih =>
    cases symbol with
    | terminal c =>
      rw [unfold_terminal_cons, List.length_cons, List.length_cons]
      omega
    | nonterminal name =>
      have hlength := List.length_pos_iff.2 (hne name)
      rw [unfold_nonterminal_cons, List.length_append, List.length_cons]
      omega

/-- Unfolding puts the whole image of a name in the place of one symbol. -/
theorem length_image_add_length_le (hne : ∀ name, image name ≠ []) {rule : Rule} {name : Char}
    (h : name ∈ nonterminals rule) :
    (image name).length + rule.length ≤ (unfold image rule).length + 1 := by
  have ⟨before, after, hrule⟩ := List.append_of_mem (mem_nonterminals.1 h)
  have hbefore := length_le_length_unfold hne before
  have hafter := length_le_length_unfold hne after
  rw [hrule, unfold_append, unfold_nonterminal_cons]
  simp only [List.length_append, List.length_cons]
  omega

/-- The images are what the bodies of the auxiliary nonterminals unfold to in the end, and a body with
nonterminals has two symbols at least. -/
structure Resolves (auxiliaries : List Char) (body image : Char → Rule) : Prop where
  unfold_body : ∀ name, unfold image (body name) = image name
  image_ne_nil : ∀ name, image name ≠ []
  body_eq : ∀ name, name ∉ auxiliaries → body name = [.nonterminal name]
  image_eq : ∀ name, name ∉ auxiliaries → image name = [.nonterminal name]
  two_le_length : ∀ name ∈ auxiliaries, nonterminals (body name) ≠ [] → 2 ≤ (body name).length

/-- The images become shorter along the bodies, so that after sufficiently many rounds no auxiliary
nonterminal is left. -/
theorem Resolves.iterate_unfold {auxiliaries : List Char} {body : Char → Rule}
    (resolves : Resolves auxiliaries body image) {count : Nat} {rule : Rule}
    (h : ∀ name ∈ nonterminals rule, name ∈ auxiliaries → (image name).length ≤ count) :
    (unfold body)^[count] rule = unfold image rule := by
  induction count generalizing rule with
  | zero =>
    have hself : unfold image rule = rule := by
      apply unfold_eq_self
      intro name hname
      apply resolves.image_eq
      intro hauxiliary
      have hlength := h name hname hauxiliary
      exact resolves.image_ne_nil name (List.eq_nil_of_length_eq_zero (Nat.le_zero.1 hlength))
    exact hself.symm
  | succ count ih =>
    rw [Function.iterate_succ_apply, ih]
    · rw [unfold_unfold]
      simp only [resolves.unfold_body]
    · intro name hname hauxiliary
      have ⟨other, hother, hbody⟩ := mem_nonterminals_unfold hname
      -- A nonterminal that is left comes from the body of an auxiliary one, whose image is longer.
      by_cases hmem : other ∈ auxiliaries
      · have hlong := resolves.two_le_length other hmem (List.ne_nil_of_mem hbody)
        have hshorter := length_image_add_length_le resolves.image_ne_nil hbody
        rw [resolves.unfold_body] at hshorter
        have hlength := h other hother hmem
        omega
      · rw [resolves.body_eq other hmem, mem_nonterminals, List.mem_singleton] at hbody
        exact absurd (Symbol.nonterminal.inj hbody ▸ hauxiliary) hmem

end Rule

namespace Grammar

variable {g h : Grammar} {image : Char → Rule}

/-- Unfolding leads from the rules of a grammar back to those of another, of which it leaves the
nonterminals alone. -/
def UnfoldsTo (h : Grammar) (image : Char → Rule) (g : Grammar) : Prop :=
  ∀ name, ∀ rule ∈ h.rules name, Rule.unfold image rule = image name ∨
    image name = [.nonterminal name] ∧ Rule.unfold image rule ∈ g.rules name

/-- Where unfolding gives rules of the old grammar, a nonterminal has no words that its image has
not. -/
theorem UnfoldsTo.language_le (unfolds : h.UnfoldsTo image g) (name : Char) :
    h.language name ≤ Rule.words g.language (image name) := by
  let unfolded : Meaning := fun name ↦ Rule.words g.language (image name)
  have model : h.IsModel unfolded := by
    intro name rule mem
    have hwords : Rule.words unfolded rule = Rule.words g.language (Rule.unfold image rule) :=
      (Rule.words_unfold rule).symm
    rw [hwords]
    rcases unfolds name rule mem with himage | ⟨himage, hsource⟩
    · rw [himage]
    · change _ ≤ Rule.words g.language (image name)
      rw [himage, Rule.words_nonterminal]
      exact g.isModel_language name _ hsource
  exact model.language_le name

/-- If the new rules yield the old ones as well, the languages of the old nonterminals stay. -/
theorem UnfoldsTo.language_eq (unfolds : h.UnfoldsTo image g) (model : g.IsModel h.language)
    {name : Char} (himage : image name = [.nonterminal name]) :
    h.language name = g.language name := by
  have hle := unfolds.language_le name
  rw [himage, Rule.words_nonterminal] at hle
  exact le_antisymm hle (model.language_le name)

end Grammar

end GrammarForms
