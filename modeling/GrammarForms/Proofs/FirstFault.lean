import GrammarForms.Proofs.ReadableTexts

/-!
# The First Fault of a Text

For which fault a text is refused can be said without the parser.  The lines are looked at first: a line
that is not blank is refused for its arrows, for what stands before its arrow, or because an earlier line
has the same left side.  Only if no line is refused do the alternatives count, in the order in which they
are written.  An alternative is refused if it is blank, for its first character that is not supported, or
for its first nonterminal that no line of the text defines.

The parser meets the faults in this order because it stops at the first element of a list that it cannot
read, and has then read all elements before.
-/

namespace GrammarForms

open Text

variable {lines earlier : List (List Char)} {line piece : List Char} {c name : Char} {names : List Char}
  {number : Nat} {error : GrammarError} {reason : LineFault}

/-! ## Faults -/

/-- Every line that is not blank has a left side, and no two have the same one. -/
structure LaidOut (lines : List (List Char)) : Prop where
  left : ∀ line ∈ content lines, HasLeft line
  nodup : ((content lines).map leftOf).Nodup

/-- For which fault a line is refused that comes after some earlier lines. -/
inductive LineRefused (earlier : List (List Char)) (line : List Char) : GrammarError → Prop where
  | noArrow (h : line.count '→' = 0) :
      LineRefused earlier line (.badLine (earlier.length + 1) (String.ofList line) .noArrow)
  | manyArrows (h : 1 < line.count '→') :
      LineRefused earlier line (.badLine (earlier.length + 1) (String.ofList line) .manyArrows)
  | badLeft (harrow : line.count '→' = 1)
      (h : ∀ name : Char, name.isUpper = true → trim (beforeArrow line) ≠ [name]) :
      LineRefused earlier line (.badLine (earlier.length + 1) (String.ofList line) .badLeft)
  | repeated (hleft : HasLeft line) {before after : List (List Char)} {first : List Char}
      (hearlier : earlier = before ++ first :: after) (hfirst : first.all isBlank = false)
      (hsame : leftOf first = leftOf line)
      (only : ∀ other ∈ content (before ++ after), leftOf other ≠ leftOf line) :
      LineRefused earlier line (.repeatedName (leftOf line) (earlier.length + 1) (before.length + 1))

/-- The alternative is well written and its uppercase letters are among the names. -/
def IsSound (names : List Char) (piece : List Char) : Prop :=
  IsAlternative piece ∧ ∀ c ∈ piece, c.isUpper = true → c ∈ names

/-- For which fault an alternative of a line is refused. -/
inductive PieceRefused (names : List Char) (number : Nat) (line piece : List Char) :
    GrammarError → Prop where
  | empty (h : strip piece = []) :
      PieceRefused names number line piece (.badLine number (String.ofList line) .emptyAlternative)
  | badSymbol (hepsilon : strip piece ≠ ['ε']) {before after : List Char} {c : Char}
      (hpiece : strip piece = before ++ c :: after) (hbefore : ∀ d ∈ before, '!' ≤ d ∧ d ≤ '~')
      (h : ¬('!' ≤ c ∧ c ≤ '~')) :
      PieceRefused names number line piece (.badLine number (String.ofList line) (.badSymbol c))
  | undefinedName (halternative : IsAlternative piece) {before after : List Char} {name : Char}
      (hpiece : strip piece = before ++ name :: after)
      (hbefore : ∀ c ∈ before, c.isUpper = true → c ∈ names) (hupper : name.isUpper = true)
      (h : name ∉ names) :
      PieceRefused names number line piece (.undefinedName name number)

/-- For which fault a text with these lines is refused. -/
inductive Refused (lines : List (List Char)) : GrammarError → Prop where
  | line {earlier later : List (List Char)} {line : List Char} {error : GrammarError}
      (hlines : lines = earlier ++ line :: later) (hearlier : LaidOut earlier)
      (hline : line.all isBlank = false) (h : LineRefused earlier line error) : Refused lines error
  | noLine (h : content lines = []) : Refused lines .emptyGrammar
  | alternative (laidOut : LaidOut lines) {earlier later : List (List Char)} {line : List Char}
      (hlines : lines = earlier ++ line :: later) (hline : line.all isBlank = false)
      (hearlier : ∀ other ∈ content earlier, ∀ piece ∈ pieces other,
        IsSound ((content lines).map leftOf) piece)
      {front back : List (List Char)} {piece : List Char}
      (hpieces : pieces line = front ++ piece :: back)
      (hfront : ∀ piece ∈ front, IsSound ((content lines).map leftOf) piece) {error : GrammarError}
      (h : PieceRefused ((content lines).map leftOf) (earlier.length + 1) line piece error) :
      Refused lines error

/-! ## The first failure of a traversal -/

/-- Some item fails, and every item before it passes. -/
def Stops {α : Type} (passes fails : α → Prop) (items : List α) : Prop :=
  ∃ front item back, items = front ++ item :: back ∧ (∀ other ∈ front, passes other) ∧ fails item

section Stops

variable {α β ε : Type} {passes fails : α → Prop} {first : α} {rest : List α}

theorem not_stops_nil : ¬Stops passes fails [] := by
  rintro ⟨front, item, back, h, -⟩
  simp at h

theorem stops_cons :
    Stops passes fails (first :: rest) ↔ fails first ∨ passes first ∧ Stops passes fails rest := by
  constructor
  · rintro ⟨front, item, back, h, hfront, hitem⟩
    rcases List.cons_eq_append_iff.1 h with ⟨rfl, e⟩ | ⟨front, rfl, rfl⟩
    · obtain ⟨rfl, -⟩ := List.cons_eq_cons.1 e
      exact Or.inl hitem
    · have ⟨hfirst, hrest⟩ := List.forall_mem_cons.1 hfront
      exact Or.inr ⟨hfirst, front, item, back, rfl, hrest, hitem⟩
  · rintro (hfirst | ⟨hfirst, front, item, back, rfl, hfront, hitem⟩)
    · exact ⟨[], first, rest, rfl, by simp, hfirst⟩
    · exact ⟨first :: front, item, back, rfl, List.forall_mem_cons.2 ⟨hfirst, hfront⟩, hitem⟩

theorem stops_filter_map {keep : β → Bool} {value : β → α} {items : List β} :
    Stops passes fails ((items.filter keep).map value) ↔
      Stops (fun item ↦ keep item = true → passes (value item))
        (fun item ↦ keep item = true ∧ fails (value item)) items := by
  induction items with
  | nil => exact iff_of_false not_stops_nil not_stops_nil
  | cons item others ih =>
    by_cases hkeep : keep item = true
    · rw [List.filter_cons_of_pos hkeep, List.map_cons, stops_cons, stops_cons, ih]
      simp only [hkeep, forall_const, true_and]
    · rw [List.filter_cons_of_neg hkeep, stops_cons, ih]
      simp only [hkeep, false_and, false_or, false_implies, true_and, Bool.false_eq_true]

/-- A traversal fails with the error of the first element that fails. -/
theorem mapM_eq_error_iff {f : β → Except ε α} {inputs : List β} {e : ε} :
    inputs.mapM f = .error e ↔
      Stops (fun input ↦ ∃ output, f input = .ok output) (fun input ↦ f input = .error e) inputs := by
  induction inputs with
  | nil => exact iff_of_false (fun h ↦ by cases h) not_stops_nil
  | cons input others ih =>
    rw [stops_cons, ← ih, List.mapM_cons]
    cases hinput : f input with
    | error _ => simp [bind, Except.bind]
    | ok output =>
      cases hothers : others.mapM f with
      | error _ => simp [bind, Except.bind]
      | ok outputs => simp [bind, Except.bind, pure, Except.pure]

end Stops

/-! ## Numbers -/

/-- A line has the number of the lines before it and itself. -/
theorem exists_numbered_iff {P : List NumberedLine → NumberedLine → Prop} :
    (∃ front line back, numbered lines = front ++ line :: back ∧ P front line) ↔
      ∃ before line after, lines = before ++ line :: after ∧
        P (numbered before) ⟨before.length + 1, line⟩ := by
  constructor
  · rintro ⟨front, line, back, h, hP⟩
    obtain ⟨pairs, others, hzip, rfl, hothers⟩ := List.map_eq_append_iff.1 h
    obtain ⟨before, rest, rfl, rfl, hrest⟩ := List.zipIdx_eq_append_iff.1 hzip
    obtain ⟨pair, others, rfl, rfl, -⟩ := List.map_eq_cons_iff.1 hothers
    obtain ⟨text, after, rfl, rfl, -⟩ := List.zipIdx_eq_cons_iff.1 hrest.symm
    refine ⟨before, text, after, rfl, ?_⟩
    simpa [numbered] using hP
  · rintro ⟨before, line, after, rfl, hP⟩
    let back : List NumberedLine :=
      (after.zipIdx (before.length + 1)).map fun pair ↦ ⟨pair.2 + 1, pair.1⟩
    refine ⟨numbered before, ⟨before.length + 1, line⟩, back, ?_, hP⟩
    rw [numbered, List.zipIdx_append, List.zipIdx_cons, List.map_append, List.map_cons, Nat.zero_add]
    rfl

theorem content_append (front back : List (List Char)) :
    content (front ++ back) = content front ++ content back :=
  List.filter_append front back

/-! ## Faults of lines -/

theorem readLeft_of_count_eq_zero (h : line.count '→' = 0) : readLeft line = .error .noArrow := by
  rw [readLeft, List.splitOn_eq_singleton (List.count_eq_zero.1 h)]

theorem readLeft_of_one_lt_count (h : 1 < line.count '→') : readLeft line = .error .manyArrows := by
  match hsplit : line.splitOn '→' with
  | [] => exact absurd hsplit (List.splitOn_ne_nil '→' line)
  | [piece] =>
    have hjoin : ['→'].intercalate (line.splitOn '→') = line := List.intercalate_splitOn '→'
    rw [hsplit, List.intercalate_singleton] at hjoin
    have hpiece : '→' ∉ piece := notMem_of_mem_splitOn (hsplit ▸ List.mem_singleton_self piece)
    rw [← hjoin, List.count_eq_zero.2 hpiece] at h
    omega
  | [left, right] =>
    have hcount := (splitOn_arrow_eq_pair_iff.1 hsplit).1
    omega
  | _ :: _ :: _ :: _ => rw [readLeft, hsplit]

theorem readLeft_of_forall_ne (hcount : line.count '→' = 1)
    (h : ∀ name : Char, name.isUpper = true → trim (beforeArrow line) ≠ [name]) :
    readLeft line = .error .badLeft := by
  rw [readLeft, splitOn_arrow_eq_pair_iff.2 ⟨hcount, rfl, rfl⟩]
  rcases htrim : trim (beforeArrow line) with _ | ⟨name, _ | _⟩
  · simp only [htrim]
  · have hname : ¬name.isUpper = true := fun hupper ↦ h name hupper htrim
    simp only [htrim, if_neg hname]
  · simp only [htrim]

theorem find?_eq_some_iff_stops {α : Type} {p : α → Bool} {items : List α} {item : α} :
    items.find? p = some item ↔
      Stops (fun other ↦ p other = false) (fun other ↦ p other = true ∧ other = item) items := by
  induction items with
  | nil => exact iff_of_false (fun h ↦ by cases h) not_stops_nil
  | cons first rest ih =>
    rw [stops_cons, ← ih, List.find?_cons]
    cases hfirst : p first with
    | true => simp
    | false => simp

theorem forall_mem_numbered_iff {P : List Char → Prop} :
    (∀ line ∈ numbered lines, line.text.all isBlank = false → P line.text) ↔
      ∀ line ∈ content lines, P line := by
  rw [content, ← map_text_filter_numbered, List.forall_mem_map, List.forall_mem_filter]
  simp only [Bool.not_eq_true']

theorem content_append_cons (front : List (List Char)) (hline : line.all isBlank = false)
    (back : List (List Char)) : content (front ++ line :: back) = content front ++ line :: content back := by
  rw [content, List.filter_append, List.filter_cons_of_pos (by rw [hline]; rfl)]
  rfl

theorem LaidOut.leftOf_ne {before after : List (List Char)}
    (laidOut : LaidOut (before ++ line :: after)) (hline : line.all isBlank = false) :
    ∀ other ∈ content (before ++ after), leftOf other ≠ leftOf line := by
  have nodup := laidOut.nodup
  rw [content_append_cons before hline, List.map_append, List.map_cons, List.nodup_middle,
    ← List.map_append, ← content_append] at nodup
  have hnew := (List.nodup_cons.1 nodup).1
  exact fun other mem h ↦ hnew (h ▸ List.mem_map_of_mem mem)

/-- The definition of a name that is found is the first one, and there is no other. -/
theorem find?_definitionsOf_eq_some (laidOut : LaidOut earlier) {first : Definition} :
    (definitionsOf earlier).find? (·.left == name) = some first ↔
      ∃ before line after, earlier = before ++ line :: after ∧ line.all isBlank = false ∧
        leftOf line = name ∧ (∀ other ∈ content (before ++ after), leftOf other ≠ name) ∧
        definitionOf ⟨before.length + 1, line⟩ = first := by
  rw [find?_eq_some_iff_stops, definitionsOf, stops_filter_map, Stops, exists_numbered_iff]
  simp only [definitionOf, beq_eq_false_iff_ne, beq_iff_eq, Bool.not_eq_true',
    forall_mem_numbered_iff (P := fun line ↦ leftOf line ≠ name)]
  refine exists_congr fun before ↦ exists_congr fun line ↦ exists_congr fun after ↦
    and_congr_right ?_
  rintro rfl
  constructor
  · rintro ⟨-, hline, rfl, hfirst⟩
    exact ⟨hline, rfl, laidOut.leftOf_ne hline, hfirst⟩
  · rintro ⟨hline, hname, only, hfirst⟩
    rw [content_append, List.forall_mem_append] at only
    exact ⟨only.1, hline, hname, hfirst⟩

theorem definitions_singleton_of_readLeft {all : List Definition} {line : NumberedLine}
    (hline : line.text.all isBlank = false) (h : readLeft line.text = .error reason) :
    definitions all [line] = .error (line.fault reason) := by
  rw [definitions, hline, if_neg Bool.false_ne_true, h]

/-- A line with a proper left side is refused only if an earlier line has the same one. -/
theorem definitions_singleton_of_hasLeft {all : List Definition} {line : NumberedLine}
    (hline : line.text.all isBlank = false) (h : HasLeft line.text) :
    definitions all [line] = .error error ↔ ∃ first, all.find? (·.left == leftOf line.text) = some first ∧
      error = .repeatedName (leftOf line.text) line.number first.line.number := by
  rw [definitions, hline, if_neg Bool.false_ne_true, readLeft_eq_ok.2 ⟨h, rfl⟩]
  cases hfind : all.find? (·.left == leftOf line.text) with
  | none => simp [hfind, definitions]
  | some first => simp [hfind, eq_comm]

/-- After lines that are not refused, a line fails for the fault for which it is refused. -/
theorem definitions_singleton_eq_error_iff (laidOut : LaidOut earlier) :
    definitions (definitionsOf earlier) [⟨earlier.length + 1, line⟩] = .error error ↔
      line.all isBlank = false ∧ LineRefused earlier line error := by
  by_cases hline : line.all isBlank = true
  · rw [definitions, if_pos hline]
    simp [definitions, hline]
  rw [Bool.not_eq_true] at hline
  simp only [hline, true_and]
  have hfails {reason : LineFault} (h : readLeft line = .error reason) :
      definitions (definitionsOf earlier) [⟨earlier.length + 1, line⟩] =
        .error (.badLine (earlier.length + 1) (String.ofList line) reason) :=
    definitions_singleton_of_readLeft hline h
  constructor
  · intro h
    by_cases hleft : HasLeft line
    · obtain ⟨first, hfind, rfl⟩ := (definitions_singleton_of_hasLeft hline hleft).1 h
      obtain ⟨before, other, after, hearlier, hother, hsame, only, rfl⟩ :=
        (find?_definitionsOf_eq_some laidOut).1 hfind
      exact .repeated hleft hearlier hother hsame only
    · obtain hcount | hcount | hcount : line.count '→' = 0 ∨ line.count '→' = 1 ∨ 1 < line.count '→' := by
        omega
      · rw [hfails (readLeft_of_count_eq_zero hcount)] at h
        cases h
        exact .noArrow hcount
      · have hnone : ∀ name : Char, name.isUpper = true → trim (beforeArrow line) ≠ [name] :=
          fun name hupper hname ↦ hleft ⟨hcount, name, hupper, hname⟩
        rw [hfails (readLeft_of_forall_ne hcount hnone)] at h
        cases h
        exact .badLeft hcount hnone
      · rw [hfails (readLeft_of_one_lt_count hcount)] at h
        cases h
        exact .manyArrows hcount
  · intro h
    cases h with
    | noArrow hcount => exact hfails (readLeft_of_count_eq_zero hcount)
    | manyArrows hcount => exact hfails (readLeft_of_one_lt_count hcount)
    | badLeft hcount hnone => exact hfails (readLeft_of_forall_ne hcount hnone)
    | repeated hleft hearlier hother hsame only =>
      have hfind := (find?_definitionsOf_eq_some laidOut).2 ⟨_, _, _, hearlier, hother, hsame, only, rfl⟩
      exact (definitions_singleton_of_hasLeft hline hleft).2 ⟨_, hfind, rfl⟩

/-- The lines are read one after another, and each sees the definitions before it. -/
theorem definitions_cons {all : List Definition} (line : NumberedLine) (rest : List NumberedLine) :
    definitions all (line :: rest) = definitions all [line] >>= (definitions · rest) := by
  rw [definitions, definitions]
  split
  · rfl
  · cases readLeft line.text with
    | error reason => rfl
    | ok split =>
      cases hfind : all.find? (·.left == split.1) with
      | none => simp only [hfind]; rfl
      | some first => simp only [hfind]; rfl

/-- The definitions before the line at which reading fails are those of the lines before it. -/
theorem definitions_eq_error_iff {lines : List NumberedLine} {all : List Definition} :
    definitions all lines = .error error ↔ ∃ front line back, lines = front ++ line :: back ∧
      ∃ others, definitions all front = .ok others ∧ definitions others [line] = .error error := by
  induction lines generalizing all with
  | nil => simp [definitions]
  | cons first rest ih =>
    rw [definitions_cons, bind_eq_error]
    constructor
    · rintro (h | ⟨others, hothers, h⟩)
      · exact ⟨[], first, rest, rfl, all, rfl, h⟩
      · obtain ⟨front, line, back, rfl, more, hmore, hline⟩ := ih.1 h
        refine ⟨first :: front, line, back, rfl, more, ?_, hline⟩
        rw [definitions_cons]
        exact bind_eq_ok.2 ⟨others, hothers, hmore⟩
    · rintro ⟨front, line, back, h, others, hothers, hline⟩
      rcases List.cons_eq_append_iff.1 h with ⟨rfl, e⟩ | ⟨front, rfl, rfl⟩
      · obtain ⟨rfl, -⟩ := List.cons_eq_cons.1 e
        cases hothers
        exact Or.inl hline
      · rw [definitions_cons] at hothers
        obtain ⟨more, hmore, hfront⟩ := bind_eq_ok.1 hothers
        exact Or.inr ⟨more, hmore, ih.2 ⟨front, line, back, rfl, others, hfront, hline⟩⟩

/-- Reading the left sides fails at the first line that is refused. -/
theorem definitions_numbered_eq_error_iff :
    definitions [] (numbered lines) = .error error ↔
      ∃ earlier line later, lines = earlier ++ line :: later ∧ LaidOut earlier ∧
        line.all isBlank = false ∧ LineRefused earlier line error := by
  rw [definitions_eq_error_iff, exists_numbered_iff]
  refine exists_congr fun earlier ↦ exists_congr fun line ↦ exists_congr fun later ↦
    and_congr_right fun _ ↦ ?_
  constructor
  · rintro ⟨all, hall, hline⟩
    obtain ⟨left, nodup, rfl⟩ := definitions_numbered_eq_ok_iff.1 hall
    exact ⟨⟨left, nodup⟩, (definitions_singleton_eq_error_iff ⟨left, nodup⟩).1 hline⟩
  · rintro ⟨laidOut, hline⟩
    exact ⟨definitionsOf earlier, definitions_numbered_eq_ok_iff.2 ⟨laidOut.left, laidOut.nodup, rfl⟩,
      (definitions_singleton_eq_error_iff laidOut).2 hline⟩

/-! ## Faults of alternatives -/

/-- Any character outside the printed part of ASCII is no symbol. -/
theorem readSymbol_eq_error_iff :
    readSymbol c = .error reason ↔ ¬('!' ≤ c ∧ c ≤ '~') ∧ reason = .badSymbol c := by
  by_cases visible : '!' ≤ c ∧ c ≤ '~'
  · rw [readSymbol_eq_ok_iff.2 ⟨visible, rfl⟩]
    simp [visible]
  · have hupper : ¬c.isUpper = true := fun h ↦ visible (visible_of_isUpper h)
    rw [readSymbol, if_neg hupper, if_neg visible, Except.error.injEq, eq_comm]
    simp [visible]

/-- An alternative is refused for being blank, or for its first character that is no symbol. -/
theorem readAlternative_eq_error_iff :
    readAlternative piece = .error reason ↔ strip piece = [] ∧ reason = .emptyAlternative ∨
      strip piece ≠ ['ε'] ∧ ∃ before c after, strip piece = before ++ c :: after ∧
        (∀ d ∈ before, '!' ≤ d ∧ d ≤ '~') ∧ ¬('!' ≤ c ∧ c ≤ '~') ∧ reason = .badSymbol c := by
  have hepsilon : trim piece = ['ε'] ↔ strip piece = ['ε'] := trim_eq_singleton_iff (by decide)
  unfold readAlternative
  split
  · rename_i htrim
    simp [trim_eq_nil_iff.1 htrim, eq_comm]
  · rename_i htrim
    simp [hepsilon.1 htrim]
  · rename_i hne hnot
    have hstrip : strip piece ≠ ['ε'] := fun h ↦ hnot (hepsilon.2 h)
    have hsome : strip piece ≠ [] := fun h ↦ hne (trim_eq_nil_iff.2 h)
    change (strip (trim piece)).mapM readSymbol = .error reason ↔ _
    rw [strip_trim, mapM_eq_error_iff, Stops]
    simp only [readSymbol_eq_ok_iff, readSymbol_eq_error_iff, exists_and_left, exists_eq, and_true,
      hstrip, hsome, ne_eq, not_false_eq_true, true_and, false_and, false_or]

theorem isSound_iff :
    IsSound names piece ↔ IsAlternative piece ∧ Rule.nonterminals (.ofPiece piece) ⊆ names := by
  refine and_congr_right fun _ ↦ ⟨fun h name hname ↦ ?_, fun h c hc hupper ↦ ?_⟩
  · have ⟨hmem, hupper⟩ := mem_nonterminals_ofPiece.1 hname
    exact h name hmem hupper
  · exact h (mem_nonterminals_ofPiece.2 ⟨hc, hupper⟩)

/-- The undefined nonterminal that is reported is the first one in the alternative. -/
theorem find?_nonterminals_eq_some_iff :
    (Rule.nonterminals (.ofPiece piece)).find? (!names.contains ·) = some name ↔
      ∃ before after, strip piece = before ++ name :: after ∧
        (∀ c ∈ before, c.isUpper = true → c ∈ names) ∧ name.isUpper = true ∧ name ∉ names := by
  rw [find?_eq_some_iff_stops, nonterminals_ofPiece, ← List.map_id ((strip piece).filter _),
    stops_filter_map, Stops]
  simp

/-- An alternative is read exactly if it is sound. -/
theorem exists_readRule_eq_ok_iff {definition : Definition} :
    (∃ rule, definition.readRule names piece = .ok rule) ↔ IsSound names piece := by
  simp only [readRule_eq_ok_iff, exists_and_left, exists_eq, and_true, isSound_iff]

/-- An alternative cannot be read for the fault for which it is refused. -/
theorem readRule_eq_error_iff {definition : Definition} :
    definition.readRule names piece = .error error ↔
      PieceRefused names definition.line.number definition.line.text piece error := by
  constructor
  · intro h
    rw [Definition.readRule] at h
    cases hread : readAlternative piece with
    | error reason =>
      rw [hread] at h
      cases h
      rcases readAlternative_eq_error_iff.1 hread with
        ⟨hempty, rfl⟩ | ⟨hepsilon, _, _, _, hpiece, hbefore, hc, rfl⟩
      · exact .empty hempty
      · exact .badSymbol hepsilon hpiece hbefore hc
    | ok rule =>
      obtain ⟨halternative, rfl⟩ := readAlternative_eq_ok.1 hread
      cases hfind : (Rule.nonterminals (.ofPiece piece)).find? (!names.contains ·) with
      | none =>
        simp only [hread, hfind] at h
        cases h
      | some name =>
        simp only [hread, hfind] at h
        cases h
        obtain ⟨before, after, hpiece, hbefore, hupper, hname⟩ := find?_nonterminals_eq_some_iff.1 hfind
        exact .undefinedName halternative hpiece hbefore hupper hname
  · intro h
    cases h with
    | empty hempty =>
      rw [Definition.readRule, readAlternative_eq_error_iff.2 (Or.inl ⟨hempty, rfl⟩)]
      rfl
    | badSymbol hepsilon hpiece hbefore hc =>
      rw [Definition.readRule,
        readAlternative_eq_error_iff.2 (Or.inr ⟨hepsilon, _, _, _, hpiece, hbefore, hc, rfl⟩)]
      rfl
    | undefinedName halternative hpiece hbefore hupper hname =>
      have hfind := find?_nonterminals_eq_some_iff.2 ⟨_, _, hpiece, hbefore, hupper, hname⟩
      rw [Definition.readRule, readAlternative_eq_ok.2 ⟨halternative, rfl⟩]
      simp only [hfind]

theorem exists_readEntry_eq_ok_iff {definition : Definition} :
    (∃ entry, definition.readEntry names = .ok entry) ↔
      ∀ piece ∈ definition.right.splitOn '|', IsSound names piece := by
  simp only [readEntry_eq_ok, exists_and_left, exists_eq, and_true, isSound_iff]

/-- Of the alternatives of one line, the first unsound one decides about the error. -/
theorem readEntry_eq_error_iff {definition : Definition} :
    definition.readEntry names = .error error ↔ Stops (IsSound names)
      (PieceRefused names definition.line.number definition.line.text · error)
      (definition.right.splitOn '|') := by
  rw [Definition.readEntry, bind_eq_error, mapM_eq_error_iff]
  simp only [exists_readRule_eq_ok_iff, readRule_eq_error_iff]
  apply or_iff_left
  rintro ⟨_, _, h⟩
  cases h

/-- Reading the alternatives fails at the first one that is refused. -/
theorem mapM_readEntry_eq_error_iff :
    (definitionsOf lines).mapM (Definition.readEntry names) = .error error ↔
      ∃ earlier line later, lines = earlier ++ line :: later ∧
        (∀ other ∈ content earlier, ∀ piece ∈ pieces other, IsSound names piece) ∧
        line.all isBlank = false ∧
        Stops (IsSound names) (PieceRefused names (earlier.length + 1) line · error) (pieces line) := by
  rw [mapM_eq_error_iff, definitionsOf, stops_filter_map, Stops, exists_numbered_iff]
  simp only [exists_readEntry_eq_ok_iff, readEntry_eq_error_iff, Bool.not_eq_true']
  refine exists_congr fun earlier ↦ exists_congr fun line ↦ exists_congr fun later ↦
    and_congr_right fun _ ↦ and_congr ?_ Iff.rfl
  exact forall_mem_numbered_iff (P := fun line ↦ ∀ piece ∈ pieces line, IsSound names piece)

namespace Grammar

variable {text : String}

/-- The stages at which reading can fail, in the order in which they are tried. -/
theorem parse_eq_error_iff :
    parse text = .error error ↔ definitions [] (numberedLines text.toList) = .error error ∨
      (definitions [] (numberedLines text.toList) = .ok [] ∧ error = .emptyGrammar) ∨
      ∃ all, definitions [] (numberedLines text.toList) = .ok all ∧
        all.mapM (Definition.readEntry (all.map (·.left))) = .error error := by
  rw [parse, bind_eq_error]
  refine or_congr_right ?_
  constructor
  · rintro ⟨all, hall, h⟩
    cases all with
    | nil => exact Or.inl ⟨hall, (Except.error.inj h).symm⟩
    | cons first rest =>
      rcases bind_eq_error.1 h with h | ⟨_, _, h⟩
      · exact Or.inr ⟨first :: rest, hall, h⟩
      · cases h
  · rintro (⟨hall, rfl⟩ | ⟨all, hall, h⟩)
    · exact ⟨[], hall, rfl⟩
    · cases all with
      | nil => cases h
      | cons first rest => exact ⟨first :: rest, hall, bind_eq_error.2 (Or.inl h)⟩

theorem definitionsOf_eq_nil_iff : definitionsOf lines = [] ↔ content lines = [] := by
  rw [← List.map_eq_nil_iff (f := (·.left)), map_left_definitionsOf, List.map_eq_nil_iff, content]

/-- A text is not read for the fault for which its lines are refused. -/
theorem parse_eq_error_iff_refused :
    parse text = .error error ↔ Refused (Text.lines text.toList) error := by
  rw [parse_eq_error_iff]
  constructor
  · rintro (h | ⟨h, rfl⟩ | ⟨all, hall, h⟩)
    · obtain ⟨_, _, _, hlines, hearlier, hline, h⟩ := definitions_numbered_eq_error_iff.1 h
      exact .line hlines hearlier hline h
    · obtain ⟨-, -, hnone⟩ := definitions_numbered_eq_ok_iff.1 h
      exact .noLine (definitionsOf_eq_nil_iff.1 hnone.symm)
    · obtain ⟨left, nodup, rfl⟩ := definitions_numbered_eq_ok_iff.1 hall
      rw [map_left_definitionsOf] at h
      obtain ⟨_, _, _, hlines, hearlier, hline, _, _, _, hpieces, hfront, h⟩ :=
        mapM_readEntry_eq_error_iff.1 h
      exact .alternative ⟨left, nodup⟩ hlines hline hearlier hpieces hfront h
  · intro h
    cases h with
    | line hlines hearlier hline h =>
      exact Or.inl (definitions_numbered_eq_error_iff.2 ⟨_, _, _, hlines, hearlier, hline, h⟩)
    | noLine h =>
      have laidOut : LaidOut (Text.lines text.toList) := ⟨by simp [h], by simp [h]⟩
      have hnone := (definitionsOf_eq_nil_iff.2 h).symm
      exact Or.inr (Or.inl
        ⟨definitions_numbered_eq_ok_iff.2 ⟨laidOut.left, laidOut.nodup, hnone⟩, rfl⟩)
    | alternative laidOut hlines hline hearlier hpieces hfront h =>
      refine Or.inr (Or.inr ⟨_, definitions_numbered_eq_ok_iff.2 ⟨laidOut.left, laidOut.nodup, rfl⟩, ?_⟩)
      rw [map_left_definitionsOf]
      exact mapM_readEntry_eq_error_iff.2 ⟨_, _, _, hlines, hearlier, hline, _, _, _, hpieces, hfront, h⟩

end Grammar

/-! ## Main result -/

/-- A fault of a line is reported with the number of the line and all of its text. -/
theorem Refused.getElem?_eq_some {complete : String}
    (h : Refused lines (.badLine number complete reason)) :
    0 < number ∧ lines[number - 1]? = some complete.toList := by
  have hget {before after : List (List Char)} {line : List Char}
      (hlines : lines = before ++ line :: after) :
      lines[before.length + 1 - 1]? = some (String.ofList line).toList := by
    rw [hlines, Nat.add_sub_cancel, String.toList_ofList]
    simp
  cases h with
  | line hlines _ _ h => cases h <;> exact ⟨Nat.succ_pos _, hget hlines⟩
  | alternative _ hlines _ _ _ _ h => cases h <;> exact ⟨Nat.succ_pos _, hget hlines⟩

namespace Grammar

/-- Which error is reported is said by the faults of the lines, and if it is a fault within a line, then
the whole line is in the error. -/
theorem parse_eq_error_iff_refused_and_whole_line (text : String) :
    (∀ error, parse text = .error error ↔ Refused (Text.lines text.toList) error) ∧
      ∀ number line reason, parse text = .error (.badLine number line reason) →
        0 < number ∧ (Text.lines text.toList)[number - 1]? = some line.toList :=
  ⟨fun _ ↦ parse_eq_error_iff_refused, fun _ _ _ h ↦
    (parse_eq_error_iff_refused.1 h).getElem?_eq_some⟩

/-- A fault in the shape of the last line is met before one in an alternative of the first. -/
example : parse "S → aé|B\n\nS →→ b" = .error (.badLine 3 "S →→ b" .manyArrows) := by
  cbv

end Grammar

end GrammarForms
