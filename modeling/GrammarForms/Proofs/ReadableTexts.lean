import GrammarForms.Proofs.RoundTrip

/-!
# Texts That Can Be Read

Which texts are read as a grammar, and as which one, can be said line by line without the parser.  A
line that is not blank has one arrow with an uppercase letter before it and alternatives after it, the
letters before the arrows differ, and the alternatives use no other uppercase letters.  Each condition
depends on the characters of a line that are not blank, so blank characters inside a line do not
matter.
-/

namespace GrammarForms

open Text

variable {line piece text : List Char} {lines : List (List Char)} {c name : Char} {rule : Rule}
  {names : List Char}

/-! ## Parts of a line -/

/-- The lines that are not blank. -/
def content (lines : List (List Char)) : List (List Char) :=
  lines.filter (!·.all isBlank)

def contentLines (text : String) : List (List Char) :=
  content (Text.lines text.toList)

def beforeArrow (line : List Char) : List Char :=
  line.takeWhile (· != '→')

def afterArrow (line : List Char) : List Char :=
  (line.dropWhile (· != '→')).tail

/-- The alternatives as they are written. -/
def pieces (line : List Char) : List (List Char) :=
  (afterArrow line).splitOn '|'

/-- The text without its blank characters. -/
def strip (text : List Char) : List Char :=
  text.filter (!isBlank ·)

/-- The first character of a line that is not blank, unless it is the arrow. -/
def leftOf (line : List Char) : Char :=
  (strip (beforeArrow line)).headD ' '

def Symbol.ofChar (c : Char) : Symbol :=
  if c.isUpper then .nonterminal c else .terminal c

/-- The letter for the empty rule, or visible ASCII characters. -/
def IsAlternative (piece : List Char) : Prop :=
  strip piece = ['ε'] ∨ strip piece ≠ [] ∧ ∀ c ∈ strip piece, '!' ≤ c ∧ c ≤ '~'

def Rule.ofPiece (piece : List Char) : Rule :=
  if strip piece = ['ε'] then [] else (strip piece).map Symbol.ofChar

/-- A line with one arrow, and one uppercase letter before it. -/
def HasLeft (line : List Char) : Prop :=
  line.count '→' = 1 ∧ ∃ name : Char, name.isUpper = true ∧ trim (beforeArrow line) = [name]

/-- Lines, none of them blank, that define a grammar. -/
@[mk_iff]
structure Readable (lines : List (List Char)) : Prop where
  ne_nil : lines ≠ []
  left : ∀ line ∈ lines, HasLeft line
  nodup : (lines.map leftOf).Nodup
  alternative : ∀ line ∈ lines, ∀ piece ∈ pieces line, IsAlternative piece
  defined : ∀ line ∈ lines, ∀ c ∈ afterArrow line, c.isUpper = true → c ∈ lines.map leftOf

/-- The grammar that the lines define. -/
def readingOf (lines : List (List Char)) : Grammar where
  entries := lines.map fun line ↦ ⟨leftOf line, distinct ((pieces line).map Rule.ofPiece)⟩
  start := (lines.map leftOf).headD ' '

/-! ## Blank characters -/

@[simp]
theorem strip_strip (text : List Char) : strip (strip text) = strip text := by
  simp [strip]

theorem strip_eq_nil_iff : strip text = [] ↔ ∀ c ∈ text, isBlank c = true := by
  simp [strip]

theorem strip_eq_self (h : ∀ c ∈ text, isBlank c = false) : strip text = text := by
  rw [strip, List.filter_eq_self]
  intro c hc
  rw [h c hc, Bool.not_false]

theorem padded_trim (text : List Char) : Padded (trim text) text := by
  let front := text.takeWhile isBlank
  let middle := text.dropWhile isBlank
  refine ⟨front, (middle.reverse.takeWhile isBlank).reverse, ?_, ?_, ?_⟩
  · exact fun c hc ↦ List.mem_takeWhile_imp hc
  · exact fun c hc ↦ List.mem_takeWhile_imp (List.mem_reverse.1 hc)
  · rw [List.append_assoc, trim, ← List.reverse_append, List.takeWhile_append_dropWhile,
      List.reverse_reverse, List.takeWhile_append_dropWhile]

/-- Padding does not change what is left of a text without its blanks. -/
theorem strip_eq_of_padded {padded : List Char} (h : Padded text padded) :
    strip padded = strip text := by
  have ⟨before, after, hbefore, hafter, hpadded⟩ := h
  have hfront : strip before = [] := strip_eq_nil_iff.2 hbefore
  have hback : strip after = [] := strip_eq_nil_iff.2 hafter
  simp only [strip] at hfront hback
  rw [hpadded, strip, List.filter_append, List.filter_append, hfront, hback, List.append_nil,
    List.nil_append, strip]

theorem strip_trim (text : List Char) : strip (trim text) = strip text :=
  (strip_eq_of_padded (padded_trim text)).symm

/-- Trimming leaves nothing of a text exactly if it is blank throughout. -/
theorem trim_eq_nil_iff : trim text = [] ↔ strip text = [] := by
  constructor
  · intro h
    rw [← strip_trim, h]
    rfl
  · intro h
    rw [trim, List.dropWhile_eq_nil_iff.2 (strip_eq_nil_iff.1 h)]
    rfl

/-- One character is left of a text in the same way whether it is trimmed or stripped. -/
theorem trim_eq_singleton_iff (hc : isBlank c = false) : trim text = [c] ↔ strip text = [c] := by
  have hself : ∀ d ∈ [c], isBlank d = false := by simpa using hc
  constructor
  · intro h
    rw [← strip_trim, h, strip_eq_self hself]
  · intro h
    have ⟨before, after, htext, hbefore, _, hafter⟩ := List.filter_eq_cons_iff.1 h
    have hpadded : Padded [c] text := by
      refine ⟨before, after, ?_, strip_eq_nil_iff.1 hafter, by rw [htext]; simp⟩
      simpa using hbefore
    exact hpadded.trim_eq (List.cons_ne_nil c []) hself

theorem isBlank_eq_false_of_isUpper (h : c.isUpper = true) : isBlank c = false := by
  have ⟨low, high⟩ := visible_of_isUpper h
  exact isBlank_eq_false_of_visible low high

theorem mem_strip_of_isUpper (h : c.isUpper = true) : c ∈ strip text ↔ c ∈ text := by
  rw [strip, List.mem_filter, isBlank_eq_false_of_isUpper h]
  simp

/-! ## The arrow -/

/-- The left part of a line ends at its first arrow. -/
theorem beforeArrow_append {left : List Char} (h : '→' ∉ left) (right : List Char) :
    beforeArrow (left ++ '→' :: right) = left := by
  have hleft : ∀ c ∈ left, (c != '→') = true := fun c hc ↦ bne_iff_ne.2 fun e ↦ h (e ▸ hc)
  rw [beforeArrow, List.takeWhile_append_of_pos hleft, List.takeWhile_cons_of_neg (by simp),
    List.append_nil]

theorem afterArrow_append {left : List Char} (h : '→' ∉ left) (right : List Char) :
    afterArrow (left ++ '→' :: right) = right := by
  have hleft : ∀ c ∈ left, (c != '→') = true := fun c hc ↦ bne_iff_ne.2 fun e ↦ h (e ▸ hc)
  rw [afterArrow, List.dropWhile_append_of_pos hleft, List.dropWhile_cons_of_neg (by simp),
    List.tail_cons]

/-- A line with one arrow consists of what stands before and after it. -/
theorem splitOn_arrow_eq_pair_iff {left right : List Char} :
    line.splitOn '→' = [left, right] ↔
      line.count '→' = 1 ∧ left = beforeArrow line ∧ right = afterArrow line := by
  constructor
  · intro h
    have hleft : '→' ∉ left := notMem_of_mem_splitOn (h ▸ List.mem_cons_self)
    have hright : '→' ∉ right :=
      notMem_of_mem_splitOn (h ▸ List.mem_cons_of_mem left (List.mem_singleton_self right))
    have hline : line = left ++ '→' :: right := by
      have hjoin : ['→'].intercalate (line.splitOn '→') = line := List.intercalate_splitOn '→'
      rw [h] at hjoin
      simpa using hjoin.symm
    rw [hline, beforeArrow_append hleft, afterArrow_append hleft, List.count_append,
      List.count_cons_self, List.count_eq_zero.2 hleft, List.count_eq_zero.2 hright]
    exact ⟨rfl, rfl, rfl⟩
  · rintro ⟨hcount, rfl, rfl⟩
    have harrow : '→' ∈ line := List.count_pos_iff.1 (by omega)
    have ⟨left, right, hline, hleft⟩ := List.eq_append_cons_of_mem harrow
    subst hline
    have hright : '→' ∉ right := by
      rw [List.count_append, List.count_cons_self, List.count_eq_zero.2 hleft] at hcount
      exact List.count_eq_zero.1 (by omega)
    rw [beforeArrow_append hleft, afterArrow_append hleft,
      List.splitOn_append_cons_self_of_not_mem hleft, List.splitOn_eq_singleton hright]

theorem leftOf_eq (hupper : name.isUpper = true) (h : trim (beforeArrow line) = [name]) :
    leftOf line = name := by
  rw [leftOf, (trim_eq_singleton_iff (isBlank_eq_false_of_isUpper hupper)).1 h, List.headD_cons]

/-- The left part of a line is accepted exactly if it is a single nonterminal and the arrow occurs
once. -/
theorem readLeft_eq_ok {split : Char × List Char} :
    readLeft line = .ok split ↔ HasLeft line ∧ split = (leftOf line, afterArrow line) := by
  constructor
  · intro h
    unfold readLeft at h
    split at h
    · rename_i left right hsplit
      have ⟨hcount, hbefore, hafter⟩ := splitOn_arrow_eq_pair_iff.1 hsplit
      subst hbefore hafter
      split at h
      · rename_i name htrim
        split at h
        · rename_i hupper
          cases h
          exact ⟨⟨hcount, name, hupper, htrim⟩, by rw [leftOf_eq hupper htrim]⟩
        · cases h
      · cases h
    · cases h
    · cases h
  · rintro ⟨⟨hcount, name, hupper, htrim⟩, rfl⟩
    have hsplit := splitOn_arrow_eq_pair_iff.2 ⟨hcount, rfl, rfl⟩
    simp only [readLeft, hsplit, htrim, leftOf_eq hupper htrim]
    exact if_pos hupper

/-! ## Alternatives -/

/-- A traversal succeeds if each element is good, and then it gives the values of the elements. -/
theorem mapM_eq_ok_iff {α β ε : Type} {f : α → Except ε β} {good : α → Prop} {value : α → β}
    (h : ∀ input output, f input = .ok output ↔ good input ∧ output = value input)
    {inputs : List α} {outputs : List β} :
    inputs.mapM f = .ok outputs ↔
      (∀ input ∈ inputs, good input) ∧ outputs = inputs.map value := by
  calc
    _ ↔ List.Forall₂ (fun input output ↦ f input = .ok output) inputs outputs :=
      ⟨forall₂_of_mapM_eq_ok, mapM_eq_ok_of_forall₂⟩
    _ ↔ List.Forall₂ (fun input output ↦ good input ∧ value input = output) inputs outputs := by
      simp only [h, eq_comm]
    _ ↔ (∀ input ∈ inputs, good input) ∧ outputs = inputs.map value := by
      rw [List.forall₂_and_left, ← List.forall₂_map_left_iff (f := value), List.forall₂_eq_eq_eq,
        @eq_comm _ outputs]

/-- The symbols are the printed ASCII characters, and capital letters are nonterminals. -/
theorem readSymbol_eq_ok_iff {symbol : Symbol} :
    readSymbol c = .ok symbol ↔ ('!' ≤ c ∧ c ≤ '~') ∧ symbol = .ofChar c := by
  constructor
  · intro h
    rcases readSymbol_eq_ok h with ⟨rfl, hupper⟩ | ⟨rfl, hupper, visible⟩
    · exact ⟨visible_of_isUpper hupper, by rw [Symbol.ofChar, if_pos hupper]⟩
    · exact ⟨visible, by rw [Symbol.ofChar, hupper, if_neg Bool.false_ne_true]⟩
  · rintro ⟨visible, rfl⟩
    unfold readSymbol Symbol.ofChar
    split
    · rfl
    · rfl

theorem mapM_readSymbol_eq_ok : text.mapM readSymbol = .ok rule ↔
    (∀ c ∈ text, '!' ≤ c ∧ c ≤ '~') ∧ rule = text.map Symbol.ofChar :=
  mapM_eq_ok_iff fun _ _ ↦ readSymbol_eq_ok_iff

/-- An alternative is accepted exactly in the form that the notation allows, and blanks inside it do
not count. -/
theorem readAlternative_eq_ok :
    readAlternative piece = .ok rule ↔ IsAlternative piece ∧ rule = .ofPiece piece := by
  have hepsilon : trim piece = ['ε'] ↔ strip piece = ['ε'] := trim_eq_singleton_iff (by decide)
  unfold readAlternative
  split
  · rename_i htrim
    have hstrip := trim_eq_nil_iff.1 htrim
    simp [IsAlternative, hstrip]
  · rename_i htrim
    have hstrip := hepsilon.1 htrim
    simp [IsAlternative, Rule.ofPiece, hstrip, eq_comm]
  · rename_i hne hnot
    have hstrip : strip piece ≠ ['ε'] := fun h ↦ hnot (hepsilon.2 h)
    have hsome : strip piece ≠ [] := fun h ↦ hne (trim_eq_nil_iff.2 h)
    change (strip (trim piece)).mapM readSymbol = .ok rule ↔ _
    rw [strip_trim, mapM_readSymbol_eq_ok, Rule.ofPiece, if_neg hstrip]
    simp [IsAlternative, hstrip, hsome]

/-- The nonterminals of an alternative are its uppercase letters. -/
theorem nonterminals_ofPiece (piece : List Char) :
    Rule.nonterminals (.ofPiece piece) = (strip piece).filter Char.isUpper := by
  have hchar : Symbol.nonterminal? ∘ Symbol.ofChar = Option.guard Char.isUpper := by
    funext c
    by_cases hupper : c.isUpper = true <;>
      simp [Symbol.ofChar, hupper, Symbol.nonterminal?, Option.guard]
  rw [Rule.ofPiece]
  split
  · rename_i hepsilon
    rw [hepsilon]
    decide
  · rw [Rule.nonterminals, List.filterMap_map, hchar, List.filterMap_eq_filter]

theorem mem_nonterminals_ofPiece :
    name ∈ Rule.nonterminals (.ofPiece piece) ↔ name ∈ piece ∧ name.isUpper = true := by
  rw [nonterminals_ofPiece, List.mem_filter]
  exact and_congr_left fun hupper ↦ mem_strip_of_isUpper hupper

theorem mem_intercalate_of_mem {joint : List Char} {pieces : List (List Char)} (mem : piece ∈ pieces)
    (h : c ∈ piece) : c ∈ joint.intercalate pieces := by
  induction pieces with
  | nil => cases mem
  | cons first rest ih =>
    cases rest with
    | nil =>
      rw [List.intercalate_singleton]
      exact List.mem_singleton.1 mem ▸ h
    | cons second others =>
      rw [List.intercalate_cons_cons, List.mem_append, List.mem_append]
      rcases List.mem_cons.1 mem with rfl | mem
      · exact Or.inl (Or.inl h)
      · exact Or.inr (ih mem)

/-- A letter on the right of the arrow stands in one of the pieces. -/
theorem mem_afterArrow_iff (h : c.isUpper = true) :
    c ∈ afterArrow line ↔ ∃ piece ∈ pieces line, c ∈ piece := by
  have hjoin : ['|'].intercalate (pieces line) = afterArrow line := List.intercalate_splitOn '|'
  rw [← hjoin]
  constructor
  · intro hc
    rcases mem_of_mem_intercalate hc with hbar | hpiece
    · rw [List.mem_singleton.1 hbar] at h
      cases h
    · exact hpiece
  · exact fun ⟨piece, mem, hc⟩ ↦ mem_intercalate_of_mem mem hc

/-! ## Definitions -/

/-- The definition that a line makes. -/
def definitionOf (line : NumberedLine) : Definition :=
  ⟨line, leftOf line.text, afterArrow line.text⟩

/-- The lines that are not blank become definitions, one after another, as long as each has a left
side that no earlier one has. -/
theorem definitions_eq_ok_iff {lines : List NumberedLine} {earlier all : List Definition}
    (nodup : (earlier.map (·.left)).Nodup) :
    definitions earlier lines = .ok all ↔
      (∀ line ∈ lines.filter (!·.text.all isBlank), HasLeft line.text) ∧
        (all.map (·.left)).Nodup ∧
        all = earlier ++ (lines.filter (!·.text.all isBlank)).map definitionOf := by
  induction lines generalizing earlier with
  | nil =>
    simp only [definitions, Except.ok.injEq, List.filter_nil, List.map_nil, List.append_nil]
    constructor
    · rintro rfl
      exact ⟨by simp, nodup, rfl⟩
    · exact fun h ↦ h.2.2.symm
  | cons line rest ih =>
    rw [definitions]
    by_cases hblank : line.text.all isBlank = true
    · rw [if_pos hblank, ih nodup, List.filter_cons_of_neg (by simp [hblank])]
    · rw [if_neg hblank, List.filter_cons_of_pos (by simp [hblank]), List.forall_mem_cons,
        List.map_cons, List.append_cons]
      by_cases hleft : HasLeft line.text
      · have hread := readLeft_eq_ok.2 ⟨hleft, rfl⟩
        have hnew : ((earlier ++ [definitionOf line]).map (·.left)).Nodup ↔
            earlier.find? (·.left == leftOf line.text) = none := nodup_left_concat_iff nodup _
        cases hfind : earlier.find? (·.left == leftOf line.text) with
        | some first =>
          simp only [hread, hfind]
          refine ⟨fun h ↦ (by cases h), ?_⟩
          rintro ⟨_, hall, rfl⟩
          -- The line is refused, so its left side has to spoil the condition on the right as well.
          rw [List.map_append] at hall
          cases hfind.symm.trans (hnew.1 (List.nodup_append.1 hall).1)
        | none =>
          simp only [hread, hfind, hleft, true_and]
          exact ih (hnew.2 hfind)
      · cases hread : readLeft line.text with
        | error reason => simp [hleft]
        | ok split => exact absurd (readLeft_eq_ok.1 hread).1 hleft

/-- What the lines that are not blank define. -/
def definitionsOf (lines : List (List Char)) : List Definition :=
  ((numbered lines).filter (!·.text.all isBlank)).map definitionOf

theorem map_text_filter_numbered (lines : List (List Char)) :
    ((numbered lines).filter (!·.text.all isBlank)).map (·.text) =
      lines.filter (!·.all isBlank) := by
  conv_rhs => rw [← map_text_numbered lines, List.filter_map]
  rfl

theorem map_left_definitionsOf (lines : List (List Char)) :
    (definitionsOf lines).map (·.left) = (lines.filter (!·.all isBlank)).map leftOf := by
  rw [definitionsOf, ← map_text_filter_numbered, List.map_map, List.map_map]
  rfl

/-- The definitions of a text come out right exactly if every line has a left side of its own. -/
theorem definitions_numbered_eq_ok_iff {all : List Definition} :
    definitions [] (numbered lines) = .ok all ↔
      (∀ line ∈ lines.filter (!·.all isBlank), HasLeft line) ∧
        ((lines.filter (!·.all isBlank)).map leftOf).Nodup ∧ all = definitionsOf lines := by
  have hnone : (([] : List Definition).map (·.left)).Nodup := List.nodup_nil
  rw [definitions_eq_ok_iff hnone, List.nil_append, ← map_left_definitionsOf,
    ← map_text_filter_numbered, List.forall_mem_map]
  refine and_congr_right fun _ ↦ and_congr_left fun e ↦ ?_
  rw [e]
  rfl

/-! ## Grammars -/

/-- A piece gives a rule exactly if it is an alternative that mentions no undefined nonterminal. -/
theorem readRule_eq_ok_iff {definition : Definition} :
    definition.readRule names piece = .ok rule ↔
      (IsAlternative piece ∧ Rule.nonterminals (.ofPiece piece) ⊆ names) ∧ rule = .ofPiece piece := by
  rw [readRule_eq_ok, readAlternative_eq_ok]
  constructor
  · rintro ⟨⟨halternative, rfl⟩, hnames⟩
    exact ⟨⟨halternative, hnames⟩, rfl⟩
  · rintro ⟨⟨halternative, hnames⟩, rfl⟩
    exact ⟨⟨halternative, rfl⟩, hnames⟩

theorem readEntry_eq_ok {definition : Definition} {entry : Entry} :
    definition.readEntry names = .ok entry ↔
      (∀ piece ∈ definition.right.splitOn '|',
        IsAlternative piece ∧ Rule.nonterminals (.ofPiece piece) ⊆ names) ∧
      entry = ⟨definition.left, distinct ((definition.right.splitOn '|').map Rule.ofPiece)⟩ := by
  constructor
  · intro h
    have ⟨rules, hrules, hentry⟩ := exists_rules_of_readEntry h
    have ⟨hgood, hvalue⟩ := (mapM_eq_ok_iff fun _ _ ↦ readRule_eq_ok_iff).1 hrules
    exact ⟨hgood, hvalue ▸ hentry⟩
  · rintro ⟨hgood, rfl⟩
    exact bind_eq_ok.2 ⟨_, (mapM_eq_ok_iff fun _ _ ↦ readRule_eq_ok_iff).2 ⟨hgood, rfl⟩, rfl⟩

namespace Grammar

variable {g : Grammar}

/-- Reading goes through the definitions of all lines before it looks at any right side. -/
theorem parse_eq_ok_iff_definitions {text : String} :
    parse text = .ok g ↔ ∃ all, definitions [] (numberedLines text.toList) = .ok all ∧
      all.mapM (Definition.readEntry (all.map (·.left))) = .ok g.entries ∧
      (all.map (·.left)).head? = some g.start := by
  constructor
  · intro h
    have ⟨first, rest, hall, hentries, hstart⟩ := exists_definitions_of_parse h
    exact ⟨first :: rest, hall, hentries, congrArg some hstart.symm⟩
  · intro ⟨all, hall, hentries, hstart⟩
    cases all with
    | nil => cases hstart
    | cons first rest =>
      have hfirst : first.left = g.start := Option.some.inj hstart
      refine bind_eq_ok.2 ⟨first :: rest, hall, bind_eq_ok.2 ⟨g.entries, hentries, ?_⟩⟩
      rw [hfirst]
      rfl

/-- What the lines of a text that are not blank define. -/
def contentDefinitions (text : String) : List Definition :=
  ((numberedLines text.toList).filter (!·.text.all isBlank)).map definitionOf

theorem map_text_filter_numberedLines (text : String) :
    ((numberedLines text.toList).filter (!·.text.all isBlank)).map (·.text) = contentLines text :=
  map_text_filter_numbered (Text.lines text.toList)

theorem map_left_contentDefinitions (text : String) :
    (contentDefinitions text).map (·.left) = (contentLines text).map leftOf :=
  map_left_definitionsOf (Text.lines text.toList)

theorem definitions_numberedLines_eq_ok_iff {text : String} {all : List Definition} :
    definitions [] (numberedLines text.toList) = .ok all ↔
      (∀ line ∈ contentLines text, HasLeft line) ∧ ((contentLines text).map leftOf).Nodup ∧
        all = contentDefinitions text :=
  definitions_numbered_eq_ok_iff

theorem mapM_readEntry_eq_ok_iff {text : String} {entries : List Entry} :
    (contentDefinitions text).mapM (Definition.readEntry names) = .ok entries ↔
      (∀ line ∈ contentLines text, ∀ piece ∈ pieces line,
        IsAlternative piece ∧ Rule.nonterminals (.ofPiece piece) ⊆ names) ∧
      entries = (readingOf (contentLines text)).entries := by
  rw [mapM_eq_ok_iff fun _ _ ↦ readEntry_eq_ok, contentDefinitions, readingOf,
    ← map_text_filter_numberedLines, List.forall_mem_map, List.forall_mem_map, List.map_map, List.map_map]
  rfl

/-- The stages of reading taken together, as a condition on the lines that are not blank. -/
theorem parse_eq_ok_iff_lines {text : String} :
    parse text = .ok g ↔ (∀ line ∈ contentLines text, HasLeft line) ∧
      ((contentLines text).map leftOf).Nodup ∧
      (∀ line ∈ contentLines text, ∀ piece ∈ pieces line,
        IsAlternative piece ∧ Rule.nonterminals (.ofPiece piece) ⊆ (contentLines text).map leftOf) ∧
      g.entries = (readingOf (contentLines text)).entries ∧
      ((contentLines text).map leftOf).head? = some g.start := by
  rw [parse_eq_ok_iff_definitions]
  constructor
  · intro ⟨all, hall, hread, hstart⟩
    have ⟨hleft, nodup, e⟩ := definitions_numberedLines_eq_ok_iff.1 hall
    subst e
    rw [map_left_contentDefinitions] at hread hstart
    have ⟨hgood, hentries⟩ := mapM_readEntry_eq_ok_iff.1 hread
    exact ⟨hleft, nodup, hgood, hentries, hstart⟩
  · intro ⟨hleft, nodup, hgood, hentries, hstart⟩
    refine ⟨_, definitions_numberedLines_eq_ok_iff.2 ⟨hleft, nodup, rfl⟩, ?_, ?_⟩
    · rw [map_left_contentDefinitions]
      exact mapM_readEntry_eq_ok_iff.2 ⟨hgood, hentries⟩
    · rwa [map_left_contentDefinitions]

/-- A text is read exactly if its lines are readable, and the grammar is the one they describe. -/
theorem parse_eq_ok_iff {text : String} :
    parse text = .ok g ↔ Readable (contentLines text) ∧ g = readingOf (contentLines text) := by
  rw [parse_eq_ok_iff_lines]
  constructor
  · intro ⟨hleft, nodup, hgood, hvalue, hstart⟩
    have hreading : g = readingOf (contentLines text) := by
      have hfirst : g.start = (readingOf (contentLines text)).start := by
        rw [readingOf, List.headD_eq_head?_getD, hstart]
        rfl
      cases g with
      | mk entries start => exact congrArg₂ Grammar.mk hvalue hfirst
    refine ⟨⟨?_, hleft, nodup, ?_, ?_⟩, hreading⟩
    · intro hnil
      rw [hnil] at hstart
      cases hstart
    · exact fun line mem piece hpiece ↦ (hgood line mem piece hpiece).1
    · intro line mem c hc hupper
      have ⟨piece, hpiece, hc⟩ := (mem_afterArrow_iff hupper).1 hc
      exact (hgood line mem piece hpiece).2 (mem_nonterminals_ofPiece.2 ⟨hc, hupper⟩)
  · rintro ⟨readable, rfl⟩
    refine ⟨readable.left, readable.nodup, fun line mem piece hpiece ↦
      ⟨readable.alternative line mem piece hpiece, ?_⟩, rfl, ?_⟩
    · intro name hname
      have ⟨hmem, hupper⟩ := mem_nonterminals_ofPiece.1 hname
      exact readable.defined line mem name ((mem_afterArrow_iff hupper).2 ⟨piece, hpiece, hmem⟩) hupper
    · have ⟨first, rest, hlines⟩ := List.exists_cons_of_ne_nil readable.ne_nil
      rw [hlines]
      rfl

end Grammar

/-! ## Blank characters do not matter -/

theorem not_or_bne_arrow (c : Char) : (!(!isBlank c) || (c != '→')) = (c != '→') := by
  by_cases hc : c = '→'
  · rw [hc]
    decide
  · simp [hc]

theorem beforeArrow_strip (line : List Char) : beforeArrow (strip line) = strip (beforeArrow line) := by
  rw [beforeArrow, strip, List.takeWhile_filter]
  simp only [not_or_bne_arrow]
  rfl

theorem afterArrow_strip (line : List Char) : afterArrow (strip line) = strip (afterArrow line) := by
  rw [afterArrow, strip, List.dropWhile_filter]
  simp only [not_or_bne_arrow]
  rw [afterArrow, strip]
  cases hdrop : line.dropWhile (· != '→') with
  | nil => rfl
  | cons c rest =>
    have hhead := List.head?_dropWhile_not (· != '→') line
    rw [hdrop] at hhead
    have harrow : c = '→' := by simpa using hhead
    rw [List.filter_cons_of_pos (by rw [harrow]; decide), List.tail_cons, List.tail_cons]

theorem strip_cons_of_isBlank (h : isBlank c = true) (text : List Char) :
    strip (c :: text) = strip text :=
  List.filter_cons_of_neg (by simp [h])

theorem strip_cons_of_not_isBlank (h : isBlank c = false) (text : List Char) :
    strip (c :: text) = c :: strip text :=
  List.filter_cons_of_pos (by simp [h])

/-- A bar is no blank, so blanks can be taken out before the alternatives are separated or after. -/
theorem splitOn_strip (text : List Char) : (strip text).splitOn '|' = (text.splitOn '|').map strip := by
  induction text with
  | nil => rfl
  | cons c rest ih =>
    have ⟨first, others, hsplit⟩ := List.exists_cons_of_ne_nil (List.splitOn_ne_nil '|' rest)
    rw [hsplit, List.map_cons] at ih
    rw [List.splitOn_cons_eq_if_modifyHead c rest, hsplit, List.modifyHead_cons]
    by_cases hblank : isBlank c = true
    · have hbar : (c == '|') = false := by
        rw [beq_eq_false_iff_ne]
        rintro rfl
        exact absurd hblank (by decide)
      rw [hbar, if_neg Bool.false_ne_true, List.map_cons, strip_cons_of_isBlank hblank,
        strip_cons_of_isBlank hblank, ih]
    · rw [Bool.not_eq_true] at hblank
      rw [strip_cons_of_not_isBlank hblank, List.splitOn_cons_eq_if_modifyHead, ih,
        List.modifyHead_cons]
      split
      · rfl
      · rw [List.map_cons, strip_cons_of_not_isBlank hblank]

theorem pieces_strip (line : List Char) : pieces (strip line) = (pieces line).map strip := by
  rw [pieces, afterArrow_strip, splitOn_strip, pieces]

@[simp]
theorem leftOf_strip (line : List Char) : leftOf (strip line) = leftOf line := by
  rw [leftOf, beforeArrow_strip, strip_strip, leftOf]

theorem ofPiece_strip (piece : List Char) : Rule.ofPiece (strip piece) = Rule.ofPiece piece := by
  rw [Rule.ofPiece, strip_strip, Rule.ofPiece]

theorem isAlternative_strip : IsAlternative (strip piece) ↔ IsAlternative piece := by
  rw [IsAlternative, strip_strip, IsAlternative]

/-- Blanks in a line do not matter to its left side. -/
theorem hasLeft_strip : HasLeft (strip line) ↔ HasLeft line := by
  have hcount : (strip line).count '→' = line.count '→' := List.count_filter (by decide)
  rw [HasLeft, hcount, HasLeft, beforeArrow_strip]
  refine and_congr_right fun _ ↦ exists_congr fun name ↦ and_congr_right fun hupper ↦ ?_
  have hname := isBlank_eq_false_of_isUpper hupper
  rw [trim_eq_singleton_iff hname, trim_eq_singleton_iff hname, strip_strip]

/-- Whether lines are readable does not depend on their blanks. -/
theorem readable_map_strip : Readable (lines.map strip) ↔ Readable lines := by
  have hlefts : (lines.map strip).map leftOf = lines.map leftOf := by
    rw [List.map_map]
    exact List.map_congr_left fun line _ ↦ leftOf_strip line
  have hmem {c : Char} (hupper : c.isUpper = true) (line : List Char) :
      c ∈ afterArrow (strip line) ↔ c ∈ afterArrow line := by
    rw [afterArrow_strip, mem_strip_of_isUpper hupper]
  rw [readable_iff, readable_iff, hlefts]
  simp only [ne_eq, List.map_eq_nil_iff, List.forall_mem_map, hasLeft_strip, pieces_strip,
    isAlternative_strip]
  refine and_congr_right fun _ ↦ and_congr_right fun _ ↦ ?_
  refine and_congr_right fun _ ↦ and_congr_right fun _ ↦ ?_
  constructor
  · exact fun h line mem c hc hupper ↦ h line mem c ((hmem hupper line).2 hc) hupper
  · exact fun h line mem c hc hupper ↦ h line mem c ((hmem hupper line).1 hc) hupper

/-- Which grammar the lines describe does not depend on their blanks. -/
theorem readingOf_map_strip : readingOf (lines.map strip) = readingOf lines := by
  have hpieces (line : List Char) :
      (pieces (strip line)).map Rule.ofPiece = (pieces line).map Rule.ofPiece := by
    rw [pieces_strip, List.map_map]
    exact List.map_congr_left fun piece _ ↦ ofPiece_strip piece
  simp only [readingOf, List.map_map, Function.comp_def, leftOf_strip, hpieces]

/-! ## Main results -/

namespace Grammar

/-- A text is read exactly if its lines are readable, and then as the grammar that they define.  Texts
whose lines differ in blank characters only are read alike. -/
theorem parse_iff_readable (text : String) :
    ((∃ g, parse text = .ok g) ↔ Readable (contentLines text)) ∧
      (∀ g, parse text = .ok g → g = readingOf (contentLines text)) ∧
      ∀ other, (contentLines other).map strip = (contentLines text).map strip →
        ∀ g, parse other = .ok g ↔ parse text = .ok g := by
  refine ⟨⟨fun ⟨g, h⟩ ↦ (parse_eq_ok_iff.1 h).1, fun readable ↦ ⟨_, parse_eq_ok_iff.2 ⟨readable, rfl⟩⟩⟩,
    fun g h ↦ (parse_eq_ok_iff.1 h).2, fun other hlines g ↦ ?_⟩
  rw [parse_eq_ok_iff, parse_eq_ok_iff, ← readable_map_strip, ← readingOf_map_strip, hlines,
    readable_map_strip, readingOf_map_strip]

def spaced : Grammar :=
  ⟨[⟨'S', [[.terminal 'a', .nonterminal 'B'], []]⟩, ⟨'B', [[.terminal 'b']]⟩], 'S'⟩

/-- Blanks inside an alternative, around the arrow and in a line of their own make no difference. -/
theorem parse_iff_readable_spaced :
    parse " S\t→ a B|ε | aB\r\n \nB→b" = .ok spaced ∧ parse "S → aB | ε | aB\nB → b" = .ok spaced := by
  have read : parse " S\t→ a B|ε | aB\r\n \nB→b" = .ok spaced := by cbv
  have hlines : (contentLines "S → aB | ε | aB\nB → b").map strip =
      (contentLines " S\t→ a B|ε | aB\r\n \nB→b").map strip := by decide
  obtain ⟨_, _, hother⟩ := parse_iff_readable " S\t→ a B|ε | aB\r\n \nB→b"
  exact ⟨read, (hother _ hlines spaced).2 read⟩

end Grammar

end GrammarForms
