import GrammarForms.Listing
import GrammarForms.Proofs.InOrder
import GrammarForms.Proofs.Lines
import Mathlib

/-!
# Reading What Was Written

The plain listing of a grammar is read as the grammar itself, provided that its nonterminals are uppercase
letters with rules, in order, and its terminals can be told from everything else in a line.  Every grammar
that was read from a text is of this kind, so writing it and reading it once more changes nothing.
-/

namespace GrammarForms

open Text

variable {c : Char} {symbol : Symbol} {rule : Rule} {rules : List Rule} {names text : List Char}

/-! ## Symbols and rules -/

/-- The symbol is read from the character that it is written with, which is not a bar. -/
structure Symbol.Legible (symbol : Symbol) : Prop where
  read : readSymbol symbol.char = .ok symbol
  ne_bar : symbol.char ≠ '|'

theorem readSymbol_eq_ok (h : readSymbol c = .ok symbol) :
    symbol = .nonterminal c ∧ c.isUpper = true ∨
      symbol = .terminal c ∧ c.isUpper = false ∧ '!' ≤ c ∧ c ≤ '~' := by
  unfold readSymbol at h
  split at h
  · rename_i hupper
    cases h
    exact Or.inl ⟨rfl, hupper⟩
  · rename_i hupper
    split at h
    · rename_i hvisible
      cases h
      exact Or.inr ⟨rfl, Bool.eq_false_iff.2 hupper, hvisible⟩
    · cases h

/-- Capital letters are printed ASCII characters. -/
theorem visible_of_isUpper (h : c.isUpper = true) : '!' ≤ c ∧ c ≤ '~' := by
  have ⟨low, high⟩ := of_decide_eq_true h
  have hfirst : '!' ≤ 'A' := by decide
  have hlast : 'Z' ≤ '~' := by decide
  exact ⟨Char.le_trans hfirst low, Char.le_trans high hlast⟩

theorem Symbol.Legible.visible (legible : symbol.Legible) :
    '!' ≤ symbol.char ∧ symbol.char ≤ '~' := by
  rcases readSymbol_eq_ok legible.read with ⟨_, hupper⟩ | ⟨_, _, hvisible⟩
  · exact visible_of_isUpper hupper
  · exact hvisible

theorem Symbol.legible_nonterminal (h : c.isUpper = true) : (Symbol.nonterminal c).Legible where
  read := if_pos h
  ne_bar := by
    rintro rfl
    cases h

theorem Symbol.legible_terminal (hupper : c.isUpper = false) (visible : '!' ≤ c ∧ c ≤ '~')
    (hbar : c ≠ '|') : (Symbol.terminal c).Legible where
  read := by
    rw [Symbol.char, readSymbol, if_neg (Bool.eq_false_iff.1 hupper), if_pos visible]
  ne_bar := hbar

/-- The characters of the written form of a rule. -/
def Rule.written (rule : Rule) : List Char :=
  (Rule.text rule).toList

theorem Rule.written_nil : written [] = ['ε'] := by
  decide

theorem Rule.written_of_ne_nil (hne : rule ≠ []) : written rule = rule.map Symbol.char := by
  simp [written, text, hne]

/-- A written rule has no bar and no character outside the notation. -/
theorem Rule.mem_written (legible : ∀ symbol ∈ rule, symbol.Legible) (h : c ∈ written rule) :
    c ≠ '|' ∧ (c = 'ε' ∨ '!' ≤ c ∧ c ≤ '~') := by
  by_cases hne : rule = []
  · rw [hne, written_nil, List.mem_singleton] at h
    subst h
    decide
  · rw [written_of_ne_nil hne] at h
    have ⟨symbol, hsymbol, hc⟩ := List.mem_map.1 h
    subst hc
    exact ⟨(legible symbol hsymbol).ne_bar, Or.inr (legible symbol hsymbol).visible⟩

theorem Rule.isBlank_eq_false_of_mem_written (legible : ∀ symbol ∈ rule, symbol.Legible)
    (h : c ∈ written rule) : isBlank c = false := by
  rcases (mem_written legible h).2 with rfl | ⟨low, high⟩
  · decide
  · exact isBlank_eq_false_of_visible low high

theorem Rule.written_ne_nil (rule : Rule) : written rule ≠ [] := by
  by_cases hne : rule = []
  · rw [hne, written_nil]
    exact List.cons_ne_nil _ _
  · rw [written_of_ne_nil hne]
    exact fun h ↦ hne (List.map_eq_nil_iff.1 h)

/-- A written rule is read back, whatever blanks surround it. -/
theorem readAlternative_written (legible : ∀ symbol ∈ rule, symbol.Legible)
    (padded : Padded (Rule.written rule) text) : readAlternative text = .ok rule := by
  have hblank : ∀ c ∈ Rule.written rule, isBlank c = false := fun c hc ↦
    Rule.isBlank_eq_false_of_mem_written legible hc
  have htrim := padded.trim_eq (Rule.written_ne_nil rule) hblank
  by_cases hne : rule = []
  · rw [hne, Rule.written_nil] at htrim
    rw [readAlternative, htrim, hne]
    rfl
  · have hread : (Rule.written rule).mapM readSymbol = .ok rule := by
      apply mapM_eq_ok_of_forall₂
      rw [Rule.written_of_ne_nil hne, List.forall₂_map_left_iff, List.forall₂_same]
      exact fun symbol hsymbol ↦ (legible symbol hsymbol).read
    have hfilter : (Rule.written rule).filter (!isBlank ·) = Rule.written rule := by
      rw [List.filter_eq_self]
      intro c hc
      rw [hblank c hc, Bool.not_false]
    -- The letter that stands for the empty rule is no symbol, so no other rule is written like it.
    have hepsilon : Rule.written rule ≠ ['ε'] := by
      intro h
      rw [h, List.mapM_cons] at hread
      cases hread
    unfold readAlternative
    split
    · rename_i h
      exact absurd (htrim.symm.trans h) (Rule.written_ne_nil rule)
    · rename_i h
      exact absurd (htrim.symm.trans h) hepsilon
    · rw [htrim, hfilter, hread]

/-! ## Lines -/

/-- What stands after the arrow of a line. -/
def writtenRules (rules : List Rule) : List Char :=
  ' ' :: [' ', '|', ' '].intercalate (rules.map Rule.written)

def Entry.written (entry : Entry) : List Char :=
  [entry.name, ' '] ++ '→' :: writtenRules entry.rules

theorem toList_plain_ofEntry (entry : Entry) :
    (RuleLine.ofEntry entry).plain.toList = entry.written := by
  have hleft : entry.name.toString.toList = [entry.name] := by simp
  have hrights : (" | ".intercalate (entry.rules.map Rule.text)).toList =
      [' ', '|', ' '].intercalate (entry.rules.map Rule.written) := by
    rw [String.toList_intercalate, List.map_map]
    rfl
  rw [RuleLine.plain, RuleLine.ofEntry, String.toList_append, String.toList_append, hleft, hrights]
  rfl

theorem isBlank_of_mem_space (c : Char) (h : c ∈ [' ']) : isBlank c = true := by
  rw [List.mem_singleton.1 h]
  decide

/-- The bars divide what stands after the arrow into the alternatives, with spaces around them. -/
theorem forall₂_padded_splitOn_writtenRules (hne : rules ≠ [])
    (hbar : ∀ rule ∈ rules, '|' ∉ Rule.written rule) :
    List.Forall₂ (fun rule part ↦ Padded (Rule.written rule) part) rules
      ((writtenRules rules).splitOn '|') := by
  induction rules with
  | nil => exact absurd rfl hne
  | cons rule rest ih =>
    have ⟨hrule, hrest⟩ := List.forall_mem_cons.1 hbar
    cases rest with
    | nil =>
      have hsplit : (' ' :: Rule.written rule).splitOn '|' = [' ' :: Rule.written rule] :=
        List.splitOn_eq_singleton (by simp [hrule])
      rw [writtenRules, List.map_singleton, List.intercalate_singleton, hsplit]
      exact .cons ⟨[' '], [], isBlank_of_mem_space, by simp, by simp⟩ .nil
    | cons other others =>
      have hnext : writtenRules (rule :: other :: others) =
          (' ' :: Rule.written rule ++ [' ']) ++ '|' :: writtenRules (other :: others) := by
        simp [writtenRules]
      rw [hnext, List.splitOn_append_cons_self_of_not_mem (by simp [hrule])]
      exact .cons ⟨[' '], [' '], isBlank_of_mem_space, isBlank_of_mem_space, rfl⟩
        (ih (List.cons_ne_nil _ _) hrest)

theorem mem_writtenRules (legible : ∀ rule ∈ rules, ∀ symbol ∈ rule, symbol.Legible)
    (h : c ∈ writtenRules rules) : c = ' ' ∨ c = 'ε' ∨ '!' ≤ c ∧ c ≤ '~' := by
  rcases List.mem_cons.1 h with hspace | h
  · exact Or.inl hspace
  · rcases mem_of_mem_intercalate h with hjoint | ⟨written, mem, hc⟩
    · simp only [List.mem_cons, List.not_mem_nil, or_false] at hjoint
      rcases hjoint with hspace | rfl | hspace
      · exact Or.inl hspace
      · decide
      · exact Or.inl hspace
    · have ⟨rule, hrule, hwritten⟩ := List.mem_map.1 mem
      exact Or.inr (Rule.mem_written (legible rule hrule) (hwritten ▸ hc)).2

/-- An entry that can be read from the line it is written in. -/
structure Entry.Legible (entry : Entry) : Prop where
  isUpper : entry.name.isUpper = true
  rules_ne_nil : entry.rules ≠ []
  symbols : ∀ rule ∈ entry.rules, ∀ symbol ∈ rule, symbol.Legible

namespace Entry.Legible

variable {entry : Entry} (legible : entry.Legible)

include legible

theorem mem_written (h : c ∈ entry.written) :
    c = '→' ∨ c = ' ' ∨ c = 'ε' ∨ '!' ≤ c ∧ c ≤ '~' := by
  have hname := visible_of_isUpper legible.isUpper
  rw [Entry.written, List.cons_append, List.cons_append, List.nil_append, List.mem_cons, List.mem_cons,
    List.mem_cons] at h
  rcases h with rfl | rfl | rfl | h
  · exact Or.inr (Or.inr (Or.inr hname))
  · decide
  · decide
  · exact Or.inr (mem_writtenRules legible.symbols h)

/-- A written entry stays on one line. -/
theorem isLine : IsLine entry.written where
  ne_nil := List.cons_ne_nil _ _
  newline_notMem := fun h ↦ absurd (legible.mem_written h) (by decide)
  getLast?_ne_return := fun h ↦ absurd (legible.mem_written (List.mem_of_getLast? h)) (by decide)

theorem all_isBlank_eq_false : entry.written.all isBlank = false := by
  have ⟨low, high⟩ := visible_of_isUpper legible.isUpper
  rw [Entry.written, List.cons_append, List.all_cons, isBlank_eq_false_of_visible low high,
    Bool.false_and]

/-- The first arrow of a written entry comes right after its name. -/
theorem readLeft_written : readLeft entry.written = .ok (entry.name, writtenRules entry.rules) := by
  have ⟨low, high⟩ := visible_of_isUpper legible.isUpper
  have harrow : '→' ∉ [entry.name, ' '] := by
    intro h
    rcases List.mem_cons.1 h with e | h
    · rw [← e] at high
      exact absurd high (by decide)
    · exact absurd h (by decide)
  have hright : '→' ∉ writtenRules entry.rules := fun h ↦
    absurd (mem_writtenRules legible.symbols h) (by decide)
  have hsplit : entry.written.splitOn '→' = [[entry.name, ' '], writtenRules entry.rules] := by
    rw [Entry.written, List.splitOn_append_cons_self_of_not_mem harrow,
      List.splitOn_eq_singleton hright]
  have hpadded : Padded [entry.name] [entry.name, ' '] :=
    ⟨[], [' '], by simp, isBlank_of_mem_space, rfl⟩
  have htrim : trim [entry.name, ' '] = [entry.name] := by
    apply hpadded.trim_eq (List.cons_ne_nil _ _)
    intro c hc
    rw [List.mem_singleton.1 hc]
    exact isBlank_eq_false_of_visible low high
  simp only [readLeft, hsplit, htrim]
  exact if_pos legible.isUpper

/-- A written entry is read back when the nonterminals it mentions are defined. -/
theorem readEntry_written {definition : Definition} (hleft : definition.left = entry.name)
    (hright : definition.right = writtenRules entry.rules)
    (defined : ∀ rule ∈ entry.rules, Rule.nonterminals rule ⊆ names) (nodup : entry.rules.Nodup) :
    definition.readEntry names = .ok entry := by
  have hrules : (definition.right.splitOn '|').mapM (definition.readRule names) = .ok entry.rules := by
    have hbar : ∀ rule ∈ entry.rules, '|' ∉ Rule.written rule := fun rule hrule h ↦
      (Rule.mem_written (legible.symbols rule hrule) h).1 rfl
    have hparts := forall₂_padded_splitOn_writtenRules legible.rules_ne_nil hbar
    rw [hright]
    apply mapM_eq_ok_of_forall₂
    have hread := (List.forall₂_and_left _ _).2 ⟨fun _ hrule ↦ hrule, hparts⟩
    apply List.Forall₂.flip
    apply hread.imp
    intro rule part ⟨hrule, padded⟩
    apply readRule_eq_ok.2
    exact ⟨readAlternative_written (legible.symbols rule hrule) padded, defined rule hrule⟩
  rw [Definition.readEntry, hrules, hleft]
  change Except.ok ⟨entry.name, distinct entry.rules⟩ = Except.ok entry
  rw [distinct_eq_self nodup]

end Entry.Legible

/-- Lines with different left sides, none of them blank, all become definitions. -/
theorem exists_definitions {lines : List NumberedLine} {earlier : List Definition}
    {splits : List (Char × List Char)}
    (h : List.Forall₂ (fun line split ↦ line.text.all isBlank = false ∧
      readLeft line.text = .ok split) lines splits)
    (nodup : (earlier.map (·.left) ++ splits.map Prod.fst).Nodup) :
    ∃ added, definitions earlier lines = .ok (earlier ++ added) ∧
      added.map (fun definition ↦ (definition.left, definition.right)) = splits := by
  induction h generalizing earlier with
  | nil => exact ⟨[], by rw [definitions, List.append_nil], rfl⟩
  | @cons line split lines splits hline _ ih =>
    -- No definition with this left side has been read yet, so the line is not refused as a second one.
    have hnew : earlier.find? (·.left == split.1) = none := by
      rw [List.find?_eq_none]
      intro definition mem hleft
      obtain ⟨_, _, hdisjoint⟩ := List.nodup_append.1 nodup
      exact hdisjoint _ (List.mem_map_of_mem mem) _ List.mem_cons_self (beq_iff_eq.1 hleft)
    obtain ⟨added, hadded, hsplits⟩ := @ih (earlier ++ [⟨line, split.1, split.2⟩]) (by
      simpa using nodup)
    refine ⟨⟨line, split.1, split.2⟩ :: added, ?_, ?_⟩
    · rw [definitions, hline.1, hline.2]
      simp only [hnew]
      simpa using hadded
    · rw [List.map_cons, hsplits]

/-! ## Grammars -/

namespace Grammar

variable {g : Grammar}

/-- Nonterminals are uppercase letters with rules, in order, and terminals are visible ASCII characters that
are neither uppercase letters nor bars. -/
structure Writable (g : Grammar) : Prop extends g.InOrder where
  isUpper : ∀ name ∈ g.names, name.isUpper = true
  rules_ne_nil : ∀ entry ∈ g.entries, entry.rules ≠ []
  terminal : ∀ c, g.Uses (.terminal c) → c.isUpper = false ∧ ('!' ≤ c ∧ c ≤ '~') ∧ c ≠ '|'

theorem Writable.legible (writable : g.Writable) {entry : Entry} (mem : entry ∈ g.entries) :
    entry.Legible where
  isUpper := writable.isUpper entry.name (List.mem_map_of_mem mem)
  rules_ne_nil := writable.rules_ne_nil entry mem
  symbols := by
    intro rule hrule symbol hsymbol
    have huses : g.Uses symbol := uses_iff_entries.2 ⟨entry, mem, rule, hrule, hsymbol⟩
    cases symbol with
    | terminal c =>
      have ⟨hupper, visible, hbar⟩ := writable.terminal c huses
      exact Symbol.legible_terminal hupper visible hbar
    | nonterminal name =>
      exact Symbol.legible_nonterminal (writable.isUpper name (writable.mem_names huses))

/-- The lines of a listing are the written entries, none left out. -/
theorem Writable.lines_plain_listing (writable : g.Writable) :
    lines g.listing.plain.toList = g.entries.map Entry.written := by
  have hfilter : g.entries.filter (!·.rules.isEmpty) = g.entries := by
    rw [List.filter_eq_self]
    intro entry mem
    simpa using writable.rules_ne_nil entry mem
  have hplain : g.listing.plain.toList = ['\n'].intercalate (g.entries.map Entry.written) := by
    rw [Listing.plain, listing, hfilter, String.toList_intercalate, List.map_map, List.map_map]
    congr 1
    exact List.map_congr_left fun entry _ ↦ toList_plain_ofEntry entry
  rw [hplain]
  apply lines_intercalate
  intro piece hpiece
  have ⟨entry, mem, hwritten⟩ := List.mem_map.1 hpiece
  exact hwritten ▸ (writable.legible mem).isLine

theorem text_numberedLines (text : List Char) : (numberedLines text).map (·.text) = lines text :=
  map_text_numbered (lines text)

theorem Writable.nonterminals_subset (writable : g.Writable) {entry : Entry} (mem : entry ∈ g.entries)
    {rule : Rule} (hrule : rule ∈ entry.rules) : Rule.nonterminals rule ⊆ g.names :=
  writable.defined _ (mem_productions_of_mem_entries mem hrule)

/-- The definitions that are read from the lines of the listing are those of the entries. -/
theorem Writable.exists_definitions_listing (writable : g.Writable) :
    ∃ all, definitions [] (numberedLines g.listing.plain.toList) = .ok all ∧
      all.map (fun definition ↦ (definition.left, definition.right)) =
        g.entries.map fun entry ↦ (entry.name, writtenRules entry.rules) := by
  have hlines : List.Forall₂ (fun text split ↦ text.all isBlank = false ∧ readLeft text = .ok split)
      ((numberedLines g.listing.plain.toList).map (·.text))
      (g.entries.map fun entry ↦ (entry.name, writtenRules entry.rules)) := by
    rw [text_numberedLines, writable.lines_plain_listing, List.forall₂_map_left_iff,
      List.forall₂_map_right_iff, List.forall₂_same]
    intro entry mem
    have legible := writable.legible mem
    exact ⟨legible.all_isBlank_eq_false, legible.readLeft_written⟩
  apply exists_definitions (List.forall₂_map_left_iff.1 hlines)
  rw [List.map_map]
  exact writable.names_nodup

/-- The listing of a writable grammar is read back as that very grammar, order included. -/
theorem parse_plain_listing (writable : g.Writable) : parse g.listing.plain = .ok g := by
  have ⟨all, hall, hsplits⟩ := writable.exists_definitions_listing
  have hnames : all.map (·.left) = g.names := by
    have hfirst := congrArg (List.map Prod.fst) hsplits
    rwa [List.map_map, List.map_map] at hfirst
  have hentries : all.mapM (Definition.readEntry (all.map (·.left))) = .ok g.entries := by
    rw [hnames]
    -- Each definition is paired with the entry that its line was written from.
    have hpairs : List.Forall₂ (fun entry definition ↦ (Definition.left definition, definition.right) =
        (Entry.name entry, writtenRules entry.rules)) g.entries all := by
      rw [← List.forall₂_eq_eq_eq, List.forall₂_map_left_iff, List.forall₂_map_right_iff] at hsplits
      exact hsplits.flip
    have hread := (List.forall₂_and_left _ _).2 ⟨fun _ mem ↦ mem, hpairs⟩
    apply mapM_eq_ok_of_forall₂
    apply List.Forall₂.flip
    apply hread.imp
    intro entry definition ⟨mem, hsplit⟩
    have ⟨hleft, hright⟩ := Prod.mk.inj hsplit
    apply (writable.legible mem).readEntry_written hleft hright
    · exact fun rule hrule ↦ writable.nonterminals_subset mem hrule
    · exact writable.rules_nodup entry mem
  -- The reader takes the first left side for the start symbol, and the listing begins with it.
  have hfront : (all.map (·.left)).head? = some g.start := by
    rw [hnames]
    exact writable.fronted
  cases all with
  | nil => cases hfront
  | cons first rest =>
    have hstart : first.left = g.start := Option.some.inj hfront
    refine bind_eq_ok.2 ⟨first :: rest, hall, bind_eq_ok.2 ⟨g.entries, hentries, ?_⟩⟩
    rw [hstart]
    rfl

/-! ## Grammars that were read -/

theorem isUpper_of_readLeft {text : List Char} {split : Char × List Char}
    (h : readLeft text = .ok split) : split.1.isUpper = true := by
  unfold readLeft at h
  split at h
  · split at h
    · split at h
      · rename_i hupper
        cases h
        exact hupper
      · cases h
    · cases h
  · cases h
  · cases h

theorem isUpper_of_definitions {lines : List NumberedLine} {earlier all : List Definition}
    (hearlier : ∀ definition ∈ earlier, definition.left.isUpper = true)
    (h : definitions earlier lines = .ok all) : ∀ definition ∈ all, definition.left.isUpper = true := by
  fun_induction definitions earlier lines with
  | case1 =>
    cases h
    exact hearlier
  | case2 _ _ _ _ ih => exact ih hearlier h
  | case3 => cases h
  | case4 => cases h
  | case5 earlier line rest _ name right hleft _ ih =>
    refine ih ?_ h
    rw [List.forall_mem_append, List.forall_mem_singleton]
    exact ⟨hearlier, isUpper_of_readLeft hleft⟩

theorem exists_char_of_readAlternative {text : List Char} {rule : Rule}
    (h : readAlternative text = .ok rule) {symbol : Symbol} (hsymbol : symbol ∈ rule) :
    ∃ c ∈ text, readSymbol c = .ok symbol := by
  unfold readAlternative at h
  split at h
  · cases h
  · cases h
    cases hsymbol
  · have ⟨c, hc, hread⟩ := exists_of_mem_mapM h hsymbol
    exact ⟨c, trim_subset text (List.mem_filter.1 hc).1, hread⟩

/-- A line always has at least one alternative. -/
theorem rules_ne_nil_of_readEntry {definition : Definition} {entry : Entry}
    (h : definition.readEntry names = .ok entry) : entry.rules ≠ [] := by
  have ⟨rules, hrules, hentry⟩ := exists_rules_of_readEntry h
  have hlength := (forall₂_of_mapM_eq_ok hrules).length_eq
  intro hnil
  have hempty : rules = [] := by
    rw [List.eq_nil_iff_forall_not_mem]
    intro rule hrule
    have hmem : rule ∈ entry.rules := by
      rw [hentry]
      exact mem_distinct.2 hrule
    rw [hnil] at hmem
    cases hmem
  rw [hempty, List.length_nil, List.length_eq_zero_iff] at hlength
  exact List.splitOn_ne_nil _ _ hlength

/-- Every grammar that was read can be written. -/
theorem writable_of_parse {text : String} (h : parse text = .ok g) : g.Writable where
  toInOrder := inOrder_of_parse h
  isUpper := by
    obtain ⟨first, rest, hall, hentries, _⟩ := exists_definitions_of_parse h
    intro name hname
    rw [names, map_name_of_mapM_readEntry hentries] at hname
    obtain ⟨definition, mem, hleft⟩ := List.mem_map.1 hname
    exact hleft ▸ isUpper_of_definitions (by simp) hall definition mem
  rules_ne_nil := by
    obtain ⟨_, _, _, hentries, _⟩ := exists_definitions_of_parse h
    intro entry mem
    obtain ⟨_, _, hentry⟩ := exists_of_mem_mapM hentries mem
    exact rules_ne_nil_of_readEntry hentry
  terminal := by
    rintro c ⟨p, hp, hc⟩
    obtain ⟨definition, alternative, hmem, hread⟩ := exists_alternative_of_mem_productions h hp
    obtain ⟨other, hother, hsymbol⟩ :=
      exists_char_of_readAlternative (readRule_eq_ok.1 hread).1 hc
    rcases readSymbol_eq_ok hsymbol with ⟨hnonterminal, _⟩ | ⟨hterminal, hupper, visible⟩
    · cases hnonterminal
    · cases hterminal
      exact ⟨hupper, visible, fun e ↦ notMem_of_mem_splitOn hmem (e ▸ hother)⟩

/-! ## Main results -/

/-- A grammar that can be written is read from its listing, with the same nonterminals and rules in the same
order.  A grammar that was read can be written, so its listing stays the same from then on. -/
theorem parse_listing :
    (∀ g : Grammar, g.Writable → parse g.listing.plain = .ok g) ∧
      ∀ text, ∀ g : Grammar, parse text = .ok g → g.Writable ∧
        (fun again ↦ again.listing.plain) <$> parse g.listing.plain = .ok g.listing.plain := by
  refine ⟨fun g ↦ parse_plain_listing, fun text g h ↦ ?_⟩
  have writable := writable_of_parse h
  refine ⟨writable, ?_⟩
  rw [parse_plain_listing writable]
  rfl

/-- Terminals from both ends of the visible characters, and signs that look like an arrow. -/
def signs : Grammar :=
  ⟨[⟨'S', [[.nonterminal 'E', .terminal '-', .terminal '>', .nonterminal 'E'], []]⟩,
    ⟨'E', [[.terminal '!'], [.terminal '~', .nonterminal 'E'], [.terminal 'a', .terminal '\\']]⟩], 'S'⟩

theorem writable_signs : signs.Writable where
  names_nodup := by decide
  rules_nodup := by decide
  start_mem := by decide
  defined := by simp [signs, productions, Entry.productions, names, Rule.nonterminals,
    Symbol.nonterminal?]
  fronted := rfl
  isUpper := by
    rw [← List.all_eq_true]
    decide
  rules_ne_nil := by decide
  terminal := by
    rintro c ⟨p, hp, hc⟩
    have h : ∀ p ∈ signs.productions, ∀ symbol ∈ p.right, symbol = .terminal symbol.char →
        symbol.char.isUpper = false ∧ ('!' ≤ symbol.char ∧ symbol.char ≤ '~') ∧
          symbol.char ≠ '|' := by
      decide
    exact h p hp (.terminal c) hc rfl

end Grammar

end GrammarForms
