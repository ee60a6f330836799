import GrammarForms.Text.Lines

/-!
# Laws of Lines and Blank Characters

Joining and splitting are inverse to each other: pieces that do not hold the separator come back, and no
piece of a split text holds it.  Lines that are joined with line feeds are found again unless one is empty
or ends in a carriage return, and blank characters around a text that has none are trimmed off.
-/

namespace GrammarForms.Text

variable {text padded piece : List Char} {pieces : List (List Char)} {separator : Char}

/-! ## Splitting -/

theorem notMem_of_mem_splitOn (h : piece ∈ text.splitOn separator) : separator ∉ piece := by
  induction text generalizing piece with
  | nil =>
    rw [List.splitOn_nil, List.mem_singleton] at h
    rw [h]
    exact List.not_mem_nil
  | cons c rest ih =>
    rw [List.splitOn_cons_eq_if_modifyHead] at h
    split at h
    · rcases List.mem_cons.1 h with h | h
      · rw [h]
        exact List.not_mem_nil
      · exact ih h
    · rename_i hne
      have ⟨first, others, hsplit⟩ := List.exists_cons_of_ne_nil (List.splitOn_ne_nil separator rest)
      rw [hsplit, List.modifyHead_cons, List.mem_cons] at h
      rcases h with h | h
      · have hfirst := ih (hsplit ▸ List.mem_cons_self)
        rw [h, List.mem_cons, not_or]
        exact ⟨fun e ↦ hne (beq_iff_eq.2 e.symm), hfirst⟩
      · exact ih (hsplit ▸ List.mem_cons_of_mem first h)

/-- A joined text has no characters but those of the joint and of the pieces. -/
theorem mem_of_mem_intercalate {α : Type} {a : α} {joint : List α} {pieces : List (List α)}
    (h : a ∈ joint.intercalate pieces) : a ∈ joint ∨ ∃ piece ∈ pieces, a ∈ piece := by
  induction pieces with
  | nil => cases h
  | cons first rest ih =>
    cases rest with
    | nil =>
      rw [List.intercalate_singleton] at h
      exact Or.inr ⟨first, List.mem_cons_self, h⟩
    | cons second others =>
      rw [List.intercalate_cons_cons, List.mem_append, List.mem_append] at h
      rcases h with (h | h) | h
      · exact Or.inr ⟨first, List.mem_cons_self, h⟩
      · exact Or.inl h
      · exact (ih h).imp_right fun ⟨piece, mem, ha⟩ ↦ ⟨piece, List.mem_cons_of_mem first mem, ha⟩

/-! ## Lines -/

/-- A piece of text that stays a line when a line feed follows it. -/
structure IsLine (piece : List Char) : Prop where
  ne_nil : piece ≠ []
  newline_notMem : '\n' ∉ piece
  getLast?_ne_return : piece.getLast? ≠ some '\r'

theorem IsLine.dropReturn_eq (h : IsLine piece) : dropReturn piece = piece :=
  if_neg h.getLast?_ne_return

/-- Lines joined by newlines are read back as they were. -/
theorem lines_intercalate (h : ∀ piece ∈ pieces, IsLine piece) :
    lines (['\n'].intercalate pieces) = pieces := by
  by_cases hpieces : pieces = []
  · rw [hpieces]
    rfl
  · have hsplit : (['\n'].intercalate pieces).splitOn '\n' = pieces :=
      List.splitOn_intercalate '\n' (fun piece mem ↦ (h piece mem).newline_notMem) hpieces
    have hinit : pieces.dropLast.map dropReturn = pieces.dropLast := by
      conv => rhs; rw [← List.map_id pieces.dropLast]
      apply List.map_congr_left
      exact fun piece mem ↦ (h piece (List.dropLast_subset pieces mem)).dropReturn_eq
    -- Only the last piece could be left out, and only if nothing stood in it.
    have hne := (h _ (List.getLast_mem hpieces)).ne_nil
    calc
      _ = pieces.dropLast ++ (pieces.getLast?.filter (!·.isEmpty)).toList := by
        rw [lines, hsplit, hinit]
      _ = pieces.dropLast ++ [pieces.getLast hpieces] := by
        simp [List.getLast?_eq_some_getLast hpieces, hne]
      _ = pieces := List.dropLast_concat_getLast hpieces

/-! ## Blank characters -/

/-- A printed ASCII character is not blank. -/
theorem isBlank_eq_false_of_visible {c : Char} (low : '!' ≤ c) (high : c ≤ '~') :
    isBlank c = false := by
  have hranges : ∀ range ∈ blankRanges, range.2 < '!'.toNat ∨ '~'.toNat < range.1 := by decide
  have hlow : '!'.toNat ≤ c.toNat := low
  have hhigh : c.toNat ≤ '~'.toNat := high
  rw [isBlank, List.any_eq_false]
  intro range mem
  have := hranges range mem
  simp only [Bool.and_eq_true, decide_eq_true_eq]
  omega

/-- The text with blank characters at either end. -/
def Padded (text padded : List Char) : Prop :=
  ∃ before after, (∀ c ∈ before, isBlank c = true) ∧ (∀ c ∈ after, isBlank c = true) ∧
    padded = before ++ text ++ after

theorem trim_subset (text : List Char) : trim text ⊆ text := by
  intro c hc
  rw [trim, List.mem_reverse] at hc
  have hback := (List.dropWhile_suffix isBlank).subset hc
  exact (List.dropWhile_suffix isBlank).subset (List.mem_reverse.1 hback)

theorem dropWhile_isBlank_eq_self (h : ∀ c ∈ text, isBlank c = false) :
    text.dropWhile isBlank = text := by
  cases text with
  | nil => rfl
  | cons c rest =>
    apply List.dropWhile_cons_of_neg
    rw [h c List.mem_cons_self]
    exact Bool.false_ne_true

/-- Trimming takes away the padding of a text without blanks, and nothing else. -/
theorem Padded.trim_eq (h : Padded text padded) (hne : text ≠ [])
    (hblank : ∀ c ∈ text, isBlank c = false) : trim padded = text := by
  have ⟨before, after, hbefore, hafter, hpadded⟩ := h
  have ⟨first, rest, htext⟩ := List.exists_cons_of_ne_nil hne
  have hfirst : isBlank first = false := hblank first (htext ▸ List.mem_cons_self)
  have hfront : padded.dropWhile isBlank = text ++ after := by
    rw [hpadded, List.append_assoc, List.dropWhile_append_of_pos hbefore, htext, List.cons_append,
      List.dropWhile_cons_of_neg (by simp [hfirst])]
  have hback : (after.reverse ++ text.reverse).dropWhile isBlank = text.reverse := by
    rw [List.dropWhile_append_of_pos fun c hc ↦ hafter c (List.mem_reverse.1 hc)]
    exact dropWhile_isBlank_eq_self fun c hc ↦ hblank c (List.mem_reverse.1 hc)
  rw [trim, hfront, List.reverse_append, hback, List.reverse_reverse]

end GrammarForms.Text
