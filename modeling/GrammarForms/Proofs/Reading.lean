import GrammarForms.Grammar.Building
import GrammarForms.Reading
import Mathlib.Data.List.Forall2

/-!
# Grammars from Texts

A grammar that was read from a text is well-formed and closed.  No line defines a nonterminal that an
earlier line has defined, the alternatives of a line are taken once each, and an alternative mentions
only nonterminals that some line of the text defines.
-/

namespace GrammarForms

theorem bind_eq_ok {α β ε : Type} {result : Except ε α} {next : α → Except ε β} {b : β} :
    result >>= next = .ok b ↔ ∃ a, result = .ok a ∧ next a = .ok b := by
  cases result with
  | error e => simp [bind, Except.bind]
  | ok a => simp [bind, Except.bind]

/-- A sequence fails with the first error that occurs. -/
theorem bind_eq_error {α β ε : Type} {result : Except ε α} {next : α → Except ε β} {e : ε} :
    result >>= next = .error e ↔ result = .error e ∨ ∃ a, result = .ok a ∧ next a = .error e := by
  cases result with
  | error e' => simp [bind, Except.bind]
  | ok a => simp [bind, Except.bind]

/-- A traversal that succeeds has succeeded at each element. -/
theorem forall₂_of_mapM_eq_ok {α β ε : Type} {f : α → Except ε β} {inputs : List α}
    {outputs : List β} (h : inputs.mapM f = .ok outputs) :
    List.Forall₂ (fun input output ↦ f input = .ok output) inputs outputs := by
  induction inputs generalizing outputs with
  | nil =>
    cases h
    exact .nil
  | cons input rest ih =>
    rw [List.mapM_cons] at h
    have ⟨output, hinput, h⟩ := bind_eq_ok.1 h
    have ⟨others, hrest, h⟩ := bind_eq_ok.1 h
    cases h
    exact .cons hinput (ih hrest)

theorem mapM_eq_ok_of_forall₂ {α β ε : Type} {f : α → Except ε β} {inputs : List α}
    {outputs : List β} (h : List.Forall₂ (fun input output ↦ f input = .ok output) inputs outputs) :
    inputs.mapM f = .ok outputs := by
  induction h with
  | nil => rfl
  | cons hinput _ ih =>
    rw [List.mapM_cons, hinput, ih]
    rfl

theorem exists_of_mem_mapM {α β ε : Type} {f : α → Except ε β} {inputs : List α}
    {outputs : List β} (h : inputs.mapM f = .ok outputs) {output : β} (mem : output ∈ outputs) :
    ∃ input ∈ inputs, f input = .ok output := by
  have hall := forall₂_of_mapM_eq_ok h
  clear h
  induction hall with
  | nil => cases mem
  | cons hinput _ ih =>
    rcases List.mem_cons.1 mem with rfl | mem
    · exact ⟨_, List.mem_cons_self, hinput⟩
    · have ⟨input, hmem, hf⟩ := ih mem
      exact ⟨input, List.mem_cons_of_mem _ hmem, hf⟩

/-! ## Lines -/

/-- The lines with their numbers, counted from one. -/
def numbered (lines : List (List Char)) : List NumberedLine :=
  lines.zipIdx.map fun (line, index) ↦ ⟨index + 1, line⟩

theorem map_text_numbered (lines : List (List Char)) : (numbered lines).map (·.text) = lines := by
  rw [numbered, List.map_map]
  exact List.zipIdx_map_fst 0 lines

/-- A definition joins the earlier ones if none of them has its left side. -/
theorem nodup_left_concat_iff {earlier : List Definition} (nodup : (earlier.map (·.left)).Nodup)
    (definition : Definition) :
    ((earlier ++ [definition]).map (·.left)).Nodup ↔
      earlier.find? (·.left == definition.left) = none := by
  rw [List.map_append, List.map_singleton, List.nodup_append, List.find?_eq_none]
  constructor
  · intro ⟨_, _, hne⟩ other mem e
    exact hne other.left (List.mem_map_of_mem mem) _ (List.mem_singleton_self _) (beq_iff_eq.1 e)
  · intro h
    refine ⟨nodup, by simp, fun one hone other hother e ↦ ?_⟩
    have ⟨found, mem, hfound⟩ := List.mem_map.1 hone
    exact h found mem (beq_iff_eq.2 (hfound.trans (e.trans (List.mem_singleton.1 hother))))

/-- No two definitions have the same left side. -/
theorem nodup_definitions {lines : List NumberedLine} {earlier all : List Definition}
    (nodup : (earlier.map (·.left)).Nodup) (h : definitions earlier lines = .ok all) :
    (all.map (·.left)).Nodup := by
  induction lines generalizing earlier with
  | nil =>
    cases h
    exact nodup
  | cons line rest ih =>
    rw [definitions] at h
    split at h
    · exact ih nodup h
    · cases hleft : readLeft line.text with
      | error reason =>
        rw [hleft] at h
        cases h
      | ok split =>
        cases hfind : earlier.find? (·.left == split.1) with
        | some first =>
          simp only [hleft, hfind] at h
          cases h
        | none =>
          simp only [hleft, hfind] at h
          exact ih ((nodup_left_concat_iff nodup _).2 hfind) h

/-- A rule is read if its alternative is and mentions defined nonterminals only. -/
theorem readRule_eq_ok {names : List Char} {definition : Definition} {text : List Char} {rule : Rule} :
    definition.readRule names text = .ok rule ↔
      readAlternative text = .ok rule ∧ Rule.nonterminals rule ⊆ names := by
  rw [Definition.readRule]
  cases readAlternative text with
  | error reason => simp
  | ok read =>
    cases hfind : (Rule.nonterminals read).find? (!names.contains ·) with
    | some name =>
      have hmem := List.mem_of_find?_eq_some hfind
      have hundefined : name ∉ names := by simpa using List.find?_some hfind
      have hnot : ¬Rule.nonterminals read ⊆ names := fun h ↦ hundefined (h hmem)
      simp only [hfind, Except.ok.injEq]
      refine ⟨fun h ↦ (by cases h), fun ⟨e, h⟩ ↦ absurd (e ▸ h) hnot⟩
    | none =>
      have hdefined : Rule.nonterminals read ⊆ names := fun name hname ↦ by
        simpa using List.find?_eq_none.1 hfind name hname
      simp only [hfind, Except.ok.injEq]
      exact ⟨fun e ↦ ⟨e, e ▸ hdefined⟩, And.left⟩

theorem exists_rules_of_readEntry {names : List Char} {definition : Definition} {entry : Entry}
    (h : definition.readEntry names = .ok entry) :
    ∃ rules, (definition.right.splitOn '|').mapM (definition.readRule names) = .ok rules ∧
      entry = ⟨definition.left, distinct rules⟩ := by
  have ⟨rules, hrules, h⟩ := bind_eq_ok.1 h
  cases h
  exact ⟨rules, hrules, rfl⟩

/-! ## The grammar of a text -/

namespace Grammar

variable {g : Grammar} {text : String}

/-- A grammar that was read comes from at least one definition, and the first gives its start
symbol. -/
theorem exists_definitions_of_parse (h : parse text = .ok g) :
    ∃ first rest, definitions [] (numberedLines text.toList) = .ok (first :: rest) ∧
      (first :: rest).mapM (Definition.readEntry ((first :: rest).map (·.left))) = .ok g.entries ∧
      g.start = first.left := by
  have ⟨all, hall, h⟩ := bind_eq_ok.1 h
  cases all with
  | nil => cases h
  | cons first rest =>
    have ⟨entries, hentries, h⟩ := bind_eq_ok.1 h
    cases h
    exact ⟨first, rest, hall, hentries, rfl⟩

theorem map_name_of_mapM_readEntry {names : List Char} {all : List Definition}
    {entries : List Entry} (h : all.mapM (Definition.readEntry names) = .ok entries) :
    entries.map (·.name) = all.map (·.left) := by
  have hall := forall₂_of_mapM_eq_ok h
  clear h
  induction hall with
  | nil => rfl
  | cons hentry _ ih =>
    have ⟨rules, _, e⟩ := exists_rules_of_readEntry hentry
    rw [List.map_cons, List.map_cons, ih, e]

/-- A grammar that was read repeats neither names nor rules. -/
theorem wellFormed_of_parse (h : parse text = .ok g) : g.WellFormed := by
  obtain ⟨first, rest, hall, hentries, _⟩ := exists_definitions_of_parse h
  constructor
  · rw [names, map_name_of_mapM_readEntry hentries]
    refine nodup_definitions ?_ hall
    exact List.nodup_nil
  · intro entry mem
    obtain ⟨definition, _, hentry⟩ := exists_of_mem_mapM hentries mem
    obtain ⟨rules, _, e⟩ := exists_rules_of_readEntry hentry
    rw [e]
    exact nodup_distinct rules

/-- Every rule was read from an alternative of some line. -/
theorem exists_alternative_of_mem_productions (h : parse text = .ok g) {p : Production}
    (hp : p ∈ g.productions) :
    ∃ definition : Definition, ∃ alternative ∈ definition.right.splitOn '|',
      definition.readRule g.names alternative = .ok p.right := by
  have ⟨first, rest, _, hentries, _⟩ := exists_definitions_of_parse h
  have hnames : g.names = (first :: rest).map (·.left) := map_name_of_mapM_readEntry hentries
  have ⟨entry, mem, hp⟩ := List.mem_flatMap.1 hp
  have ⟨rule, hrule, e⟩ := List.mem_map.1 hp
  have ⟨definition, _, hentry⟩ := exists_of_mem_mapM hentries mem
  have ⟨rules, hrules, he⟩ := exists_rules_of_readEntry hentry
  have hread : rule ∈ rules := by
    rw [he] at hrule
    exact mem_distinct.1 hrule
  have ⟨alternative, hmem, hreadRule⟩ := exists_of_mem_mapM hrules hread
  have hright : p.right = rule := by rw [← e]
  rw [hnames, hright]
  exact ⟨definition, alternative, hmem, hreadRule⟩

/-- A grammar that was read defines every nonterminal it mentions. -/
theorem closed_of_parse (h : parse text = .ok g) : g.Closed := by
  constructor
  · obtain ⟨first, rest, _, hentries, hstart⟩ := exists_definitions_of_parse h
    rw [names, map_name_of_mapM_readEntry hentries, hstart]
    exact List.mem_cons_self
  · intro p hp
    obtain ⟨definition, alternative, _, hread⟩ := exists_alternative_of_mem_productions h hp
    exact (readRule_eq_ok.1 hread).2

end Grammar

end GrammarForms
