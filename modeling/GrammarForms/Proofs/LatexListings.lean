import GrammarForms.Listing
import GrammarForms.Proofs.Lines
import GrammarForms.Proofs.UniqueReading

/-!
# The LaTeX Text of a Listing

The forms that characters have in LaTeX are no prefix-free code, and some begin like the signs that lay out
an array.  But the characters of a grammar are not blank, and neither is any part of their forms.  The line
feeds thus divide a text into its lines, and the spaces divide a line into tokens.  No character has the same
form as another or as a sign, so the signs divide the tokens of a line into its alternatives, and those into
their characters.
-/

namespace GrammarForms

open Text

/-! ## Characters -/

namespace Latex

/-- The form of a character that stands alone. -/
def glyph (c : Char) : List Char :=
  escapeChar c none

/-- The characters that do not print themselves. -/
def commands : List Char :=
  ['&', '%', '$', '#', '_', '\x7b', '\x7d', '[', ']', '~', '^', '<', '>', '!', '\\']

/-- The sign between alternatives. -/
def bar : List Char := "\\mid".toList

/-- The sign between characters. -/
def gap : List Char := ['\\']

def epsilon : List Char := "\\epsilon".toList

/-- What stands between the left side and the alternatives. -/
def arrow : List (List Char) := [['&'], "\\rightarrow".toList, ['&']]

theorem glyph_cases (c : Char) : (c ∈ commands ∧ 1 < (glyph c).length) ∨ c ≠ '\\' ∧ glyph c = [c] := by
  by_cases h : c ∈ commands
  · have hall : commands.all (fun c ↦ decide (1 < (glyph c).length)) = true := by decide
    exact Or.inl ⟨h, of_decide_eq_true (List.all_eq_true.1 hall c h)⟩
  · have hne : c ≠ '\\' := by
      rintro rfl
      exact h (by decide)
    simp only [commands, List.mem_cons, List.not_mem_nil, or_false, not_or] at h
    exact Or.inr ⟨hne, by simp [glyph, escapeChar, h]⟩

/-- Different characters have different glyphs. -/
theorem glyph_injective : Function.Injective glyph := by
  have hcommands : commands.all (fun a ↦ commands.all fun b ↦ glyph a != glyph b || a == b) = true := by
    decide
  intro a b h
  rcases glyph_cases a with ⟨ha, hlong⟩ | ⟨_, ha⟩ <;>
    rcases glyph_cases b with ⟨hb, hlong'⟩ | ⟨_, hb⟩
  · have hab := List.all_eq_true.1 (List.all_eq_true.1 hcommands a ha) b hb
    rw [h, bne_self_eq_false, Bool.false_or] at hab
    exact beq_iff_eq.1 hab
  · rw [h, hb] at hlong
    exact absurd hlong (by simp)
  · rw [← h, ha] at hlong'
    exact absurd hlong' (by simp)
  · rw [ha, hb] at h
    exact List.singleton_inj.1 h

/-- No character has the form of a sign between characters or alternatives, or of the empty rule. -/
theorem glyph_ne (c : Char) : glyph c ≠ bar ∧ glyph c ≠ gap ∧ glyph c ≠ epsilon := by
  rcases glyph_cases c with ⟨hc, _⟩ | ⟨hne, h⟩
  · have hall : commands.all (fun c ↦ glyph c != bar && (glyph c != gap && glyph c != epsilon)) = true := by
      decide
    simpa using List.all_eq_true.1 hall c hc
  · rw [h]
    have hlong : 1 < bar.length ∧ 1 < epsilon.length := by decide
    exact ⟨fun e ↦ Nat.ne_of_lt hlong.1 (congrArg List.length e), fun e ↦ hne (List.singleton_inj.1 e),
      fun e ↦ Nat.ne_of_lt hlong.2 (congrArg List.length e)⟩

theorem any_isBlank_glyph {c : Char} (hc : isBlank c = false) : (glyph c).any isBlank = false := by
  rcases glyph_cases c with ⟨hcommand, _⟩ | ⟨_, hglyph⟩
  · have hall : commands.all (fun c ↦ (glyph c).any isBlank == false) = true := by decide
    exact beq_iff_eq.1 (List.all_eq_true.1 hall c hcommand)
  · rw [hglyph, List.any_cons, hc, List.any_nil, Bool.false_or]

/-! ## Tokens -/

/-- Tokens with a space between them. -/
def spaced (tokens : List (List Char)) : List Char :=
  [' '].intercalate tokens

/-- Between two runs of tokens stands one blank. -/
theorem spaced_append {left right : List (List Char)} (hleft : left ≠ []) (hright : right ≠ []) :
    spaced (left ++ right) = spaced left ++ ' ' :: spaced right := by
  have ⟨first, others, hfirst⟩ := List.exists_cons_of_ne_nil hleft
  have ⟨second, more, hsecond⟩ := List.exists_cons_of_ne_nil hright
  rw [hfirst, hsecond, List.cons_append, spaced, spaced, spaced, intercalate_cons, intercalate_cons,
    intercalate_cons, List.flatMap_append, List.flatMap_cons]
  simp

/-- Texts joined with a sign between spaces have the sign among their tokens. -/
theorem intercalate_spaced {mark : List Char} {pieces : List (List (List Char))}
    (nonempty : ∀ piece ∈ pieces, piece ≠ []) :
    (' ' :: mark ++ [' ']).intercalate (pieces.map spaced) = spaced ([mark].intercalate pieces) := by
  induction pieces with
  | nil => rfl
  | cons first rest ih =>
    have ⟨hfirst, hrest⟩ := List.forall_mem_cons.1 nonempty
    cases rest with
    | nil => rw [List.map_singleton, List.intercalate_singleton, List.intercalate_singleton]
    | cons second others =>
      have hne : [mark].intercalate (second :: others) ≠ [] :=
        intercalate_ne_nil (List.cons_ne_nil _ _) hrest
      have hjoin := ih hrest
      rw [List.map_cons] at hjoin
      rw [List.map_cons, List.map_cons, List.intercalate_cons_cons, hjoin, List.intercalate_cons_cons,
        spaced_append (by simp) hne, spaced_append hfirst (List.cons_ne_nil _ _)]
      simp [spaced]

/-- The tokens of an alternative that is written with the characters. -/
def alternative (written : List Char) : List (List Char) :=
  if written = ['ε'] then [epsilon] else [gap].intercalate (written.map fun c ↦ [glyph c])

theorem mem_alternative {written token : List Char} (h : token ∈ alternative written) :
    token = epsilon ∨ token = gap ∨ ∃ c ∈ written, token = glyph c := by
  unfold alternative at h
  split at h
  · exact Or.inl (List.mem_singleton.1 h)
  · rcases mem_of_mem_intercalate h with h | ⟨piece, hpiece, h⟩
    · exact Or.inr (Or.inl (List.mem_singleton.1 h))
    · have ⟨c, hc, e⟩ := List.mem_map.1 hpiece
      rw [← e] at h
      exact Or.inr (Or.inr ⟨c, hc, List.mem_singleton.1 h⟩)

theorem bar_notMem_alternative (written : List Char) : bar ∉ alternative written := by
  intro h
  rcases mem_alternative h with h | h | ⟨c, _, h⟩
  · exact absurd h (by decide)
  · exact absurd h (by decide)
  · exact (glyph_ne c).1 h.symm

theorem alternative_ne_nil {written : List Char} (hne : written ≠ []) : alternative written ≠ [] := by
  unfold alternative
  split
  · exact List.cons_ne_nil _ _
  · exact intercalate_ne_nil (by simpa using hne) (by simp)

/-- An alternative can be recovered from its tokens. -/
theorem alternative_inj {written other : List Char} (hne : written ≠ []) (hne' : other ≠ [])
    (h : alternative written = alternative other) : written = other := by
  -- The empty rule is written as one sign, like no character, so its tokens are those of no other alternative.
  have hepsilon {c : Char} {cs : List Char} :
      [gap].intercalate ((c :: cs).map fun c ↦ [glyph c]) ≠ [epsilon] := by
    rw [List.map_cons, intercalate_cons]
    exact fun e ↦ (glyph_ne c).2.2 (List.cons_eq_cons.1 e).1
  have hgap (text : List Char) : ∀ piece ∈ text.map fun c ↦ [glyph c], gap ∉ piece := by
    simpa using fun c _ e ↦ (glyph_ne c).2.1 e.symm
  have ⟨c, cs, hwritten⟩ := List.exists_cons_of_ne_nil hne
  have ⟨d, ds, hother⟩ := List.exists_cons_of_ne_nil hne'
  unfold alternative at h
  split at h <;> split at h
  · rename_i hleft hright
    rw [hleft, hright]
  · exact absurd h.symm (hother ▸ hepsilon)
  · exact absurd h (hwritten ▸ hepsilon)
  · have hglyphs := intercalate_inj List.mem_cons_self (hgap written) (hgap other) (by simpa) (by simpa) h
    exact List.map_injective_iff.2 (fun _ _ e ↦ glyph_injective (List.singleton_inj.1 e)) hglyphs

end Latex

/-! ## Lines -/

open Latex

namespace RuleLine

variable {line other : RuleLine}

/-- The text of an alternative is its tokens with blanks between them. -/
theorem toList_latexAlternative (right : String) :
    (latexAlternative right).toList = spaced (alternative right.toList) := by
  have hright : right.toList = ['ε'] ↔ right = "ε" := by
    rw [← String.toList_inj]
    rfl
  unfold latexAlternative alternative
  simp only [hright]
  split
  · rfl
  · have hmark : " \\ ".toList = ' ' :: gap ++ [' '] := by decide
    have hglyph (c : Char) : (escape c.toString).toList = spaced [glyph c] := by
      simp [escape, escapeList, spaced, glyph]
    rw [← intercalate_spaced (by simp), String.toList_intercalate, hmark, List.map_map, List.map_map]
    congr 1
    exact List.map_congr_left fun c _ ↦ hglyph c

/-- The tokens of a line. -/
def tokens (line : RuleLine) : List (List Char) :=
  escapeList line.left.toList :: arrow ++
    [bar].intercalate (line.rights.map fun right ↦ alternative right.toList)

/-- The left side is one character, and there are alternatives, none of them empty and none with a blank. -/
structure Legible (line : RuleLine) : Prop where
  left : ∃ c, line.left.toList = [c] ∧ isBlank c = false
  rights_ne_nil : line.rights ≠ []
  right_ne_nil : ∀ right ∈ line.rights, right.toList ≠ []
  unbroken : ∀ right ∈ line.rights, ∀ c ∈ right.toList, isBlank c = false

namespace Legible

variable (legible : line.Legible)

include legible

theorem alternatives_ne_nil :
    ∀ piece ∈ line.rights.map fun right ↦ alternative right.toList, piece ≠ [] := by
  intro piece hpiece
  have ⟨right, hright, e⟩ := List.mem_map.1 hpiece
  exact e ▸ alternative_ne_nil (legible.right_ne_nil right hright)

/-- The text of a line is its tokens with blanks between them. -/
theorem toList_latex : line.latex.toList = spaced line.tokens := by
  have hmark : " \\mid ".toList = ' ' :: bar ++ [' '] := by decide
  have hrights : (" \\mid ".intercalate (line.rights.map latexAlternative)).toList =
      spaced ([bar].intercalate (line.rights.map fun right ↦ alternative right.toList)) := by
    rw [← intercalate_spaced legible.alternatives_ne_nil, String.toList_intercalate, hmark, List.map_map,
      List.map_map]
    congr 1
    exact List.map_congr_left fun right _ ↦ toList_latexAlternative right
  have hne : [bar].intercalate (line.rights.map fun right ↦ alternative right.toList) ≠ [] :=
    intercalate_ne_nil (by simpa using legible.rights_ne_nil) legible.alternatives_ne_nil
  rw [latex, String.toList_append, String.toList_append, hrights, tokens,
    spaced_append (List.cons_ne_nil _ _) hne]
  simp [spaced, arrow, escape]

theorem any_isBlank_of_mem_tokens {token : List Char} (mem : token ∈ line.tokens) :
    token.any isBlank = false := by
  rcases List.mem_append.1 mem with h | h
  · have ⟨c, hleft, hblank⟩ := legible.left
    have hglyph : (escapeList line.left.toList).any isBlank = false := by
      rw [hleft, escapeList, escapeList, List.append_nil]
      exact any_isBlank_glyph hblank
    have harrow : arrow.all (fun sign ↦ sign.any isBlank == false) = true := by decide
    rcases List.mem_cons.1 h with h | h
    · rw [h]
      exact hglyph
    · exact beq_iff_eq.1 (List.all_eq_true.1 harrow token h)
  · rcases mem_of_mem_intercalate h with h | ⟨piece, hpiece, h⟩
    · rw [List.mem_singleton.1 h]
      decide
    · have ⟨right, hright, e⟩ := List.mem_map.1 hpiece
      rw [← e] at h
      rcases mem_alternative h with rfl | rfl | ⟨c, hc, rfl⟩
      · decide
      · decide
      · exact any_isBlank_glyph (legible.unbroken right hright c hc)

/-- No token has a blank inside, so the blanks of a line show where its tokens end. -/
theorem notMem_of_isBlank {blank : Char} (hblank : isBlank blank = true) {token : List Char}
    (mem : token ∈ line.tokens) : blank ∉ token := fun h ↦
  List.any_eq_false.1 (legible.any_isBlank_of_mem_tokens mem) blank h hblank

/-- A line of the listing stays on one line. -/
theorem newline_notMem : '\n' ∉ line.latex.toList := by
  rw [legible.toList_latex]
  intro h
  rcases mem_of_mem_intercalate h with h | ⟨token, mem, h⟩
  · exact absurd h (by decide)
  · exact legible.notMem_of_isBlank (by decide) mem h

end Legible

/-- Legible lines with the same LaTeX text are equal. -/
theorem latex_inj (legible : line.Legible) (legible' : other.Legible) (h : line.latex = other.latex) :
    line = other := by
  have htexts := congrArg String.toList h
  rw [legible.toList_latex, legible'.toList_latex] at htexts
  have htokens : line.tokens = other.tokens :=
    intercalate_inj List.mem_cons_self (fun _ ↦ legible.notMem_of_isBlank (by decide))
      (fun _ ↦ legible'.notMem_of_isBlank (by decide)) (List.cons_ne_nil _ _) (List.cons_ne_nil _ _) htexts
  have ⟨hlefts, hrest⟩ := List.cons_eq_cons.1 htokens
  have hmarked := List.append_cancel_left hrest
  have hpieces := intercalate_inj List.mem_cons_self (by simp [bar_notMem_alternative])
    (by simp [bar_notMem_alternative]) (by simpa using legible.rights_ne_nil)
    (by simpa using legible'.rights_ne_nil) hmarked
  have hrights : line.rights = other.rights := eq_of_map_eq (fun right hright right' hright' e ↦
    String.toList_inj.1 (alternative_inj (legible.right_ne_nil right hright)
      (legible'.right_ne_nil right' hright') e)) hpieces
  have hleft : line.left = other.left := by
    have ⟨c, hc, _⟩ := legible.left
    have ⟨d, hd, _⟩ := legible'.left
    rw [hc, hd] at hlefts
    simp only [escapeList, List.append_nil] at hlefts
    have hcd : c = d := glyph_injective hlefts
    rw [← String.toList_inj, hc, hd, hcd]
  cases line
  cases other
  exact congrArg₂ mk hleft hrights

end RuleLine

/-! ## Listings -/

namespace Listing

variable {listing other : Listing}

/-- What the line breaks of the array stand between. -/
def latexParts (listing : Listing) : List String :=
  "\\[\\begin\x7barray\x7d\x7bcll\x7d" :: listing.lines.map RuleLine.latex ++ ["\\end\x7barray\x7d\\]"]

theorem newline_notMem_latexParts (legible : ∀ line ∈ listing.lines, line.Legible) :
    ∀ part ∈ listing.latexParts.map String.toList, '\n' ∉ part := by
  intro part hpart
  have ⟨text, htext, e⟩ := List.mem_map.1 hpart
  subst e
  rcases List.mem_append.1 htext with htext | htext
  · rcases List.mem_cons.1 htext with rfl | htext
    · decide
    · have ⟨line, mem, e⟩ := List.mem_map.1 htext
      exact e ▸ (legible line mem).newline_notMem
  · rw [List.mem_singleton.1 htext]
    decide

/-- Listings with legible lines and the same LaTeX text are equal. -/
theorem latex_inj (legible : ∀ line ∈ listing.lines, line.Legible)
    (legible' : ∀ line ∈ other.lines, line.Legible) (h : listing.latex = other.latex) :
    listing = other := by
  have htexts : ("\\\\\n".intercalate listing.latexParts).toList =
      ("\\\\\n".intercalate other.latexParts).toList := congrArg String.toList h
  rw [String.toList_intercalate, String.toList_intercalate] at htexts
  have hnewline : '\n' ∈ "\\\\\n".toList := by decide
  have hparts := intercalate_inj hnewline (newline_notMem_latexParts legible)
    (newline_notMem_latexParts legible') (List.cons_ne_nil _ _) (List.cons_ne_nil _ _) htexts
  have hlatexParts : listing.latexParts = other.latexParts :=
    List.map_injective_iff.2 (fun _ _ ↦ String.toList_inj.1) hparts
  have hlines := List.append_cancel_right (List.cons_eq_cons.1 hlatexParts).2
  cases listing
  cases other
  exact congrArg mk (eq_of_map_eq (fun line mem line' mem' ↦
    RuleLine.latex_inj (legible line mem) (legible' line' mem')) hlines)

end Listing

end GrammarForms
