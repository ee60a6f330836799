import GrammarForms.Listing
import GrammarForms.Proofs.UniqueReading

/-!
# The JSON Text of a Listing

An escaped character is recognised whatever follows it, for only escaped characters begin with a backslash.
None of them begins with a quotation mark, which therefore ends a string.  The texts of strings, of arrays and
of objects are then prefix-free codes too, and each listing has a JSON text of its own.
-/

namespace GrammarForms

/-! ## Strings and arrays -/

namespace Json

/-- The characters that do not stand for themselves. -/
def escaped : List Char :=
  '"' :: '\\' :: (List.range 0x20).map Char.ofNat

theorem escapeChar_cases (c : Char) :
    (c ∈ escaped ∧ ∃ tail, escapeChar c = '\\' :: tail) ∨ c ≠ '"' ∧ c ≠ '\\' ∧ escapeChar c = [c] := by
  by_cases h : c ∈ escaped
  · have hall : escaped.all (fun c ↦ (escapeChar c).head? == some '\\') = true := by decide
    exact Or.inl ⟨h, List.head?_eq_some_iff.1 (beq_iff_eq.1 (List.all_eq_true.1 hall c h))⟩
  · rw [escaped, List.mem_cons, List.mem_cons, not_or, not_or] at h
    have ⟨hquote, hbackslash, hcontrol⟩ := h
    have hlow : ¬c.toNat < 0x20 := fun hlt ↦
      hcontrol (List.mem_map.2 ⟨c.toNat, List.mem_range.2 hlt, Char.ofNat_toNat c⟩)
    have hne (control : Char) (hcontrol : control.toNat < 0x20) : c ≠ control := fun e ↦ hlow (e ▸ hcontrol)
    refine Or.inr ⟨hquote, hbackslash, ?_⟩
    rw [escapeChar, if_neg hquote, if_neg hbackslash, if_neg (hne _ (by decide)), if_neg (hne _ (by decide)),
      if_neg (hne _ (by decide)), if_neg (hne _ (by decide)), if_neg (hne _ (by decide)), if_neg hlow]

/-- No escape sequence is the beginning of another, so a string literal can be read from the left.
-/
theorem prefixFree_escapeChar : PrefixFree escapeChar := by
  have hescaped : escaped.all (fun a ↦ escaped.all fun b ↦
      !(escapeChar a).isPrefixOf (escapeChar b) || a == b) = true := by decide +kernel
  apply prefixFree_of_prefix
  intro a b h
  rcases escapeChar_cases a with ⟨ha, as, has⟩ | ⟨_, hne, ha⟩ <;>
    rcases escapeChar_cases b with ⟨hb, bs, hbs⟩ | ⟨_, hne', hb⟩
  · have hab := List.all_eq_true.1 (List.all_eq_true.1 hescaped a ha) b hb
    rw [List.isPrefixOf_iff_prefix.2 h] at hab
    exact beq_iff_eq.1 hab
  · rw [has, hb, List.cons_prefix_cons] at h
    exact absurd h.1.symm hne'
  · rw [ha, hbs, List.cons_prefix_cons] at h
    exact absurd h.1 hne
  · rw [ha, hb, List.cons_prefix_cons] at h
    exact h.1

/-- An escape sequence never begins with the quote that closes the literal. -/
theorem neverBegins_escapeChar : NeverBegins escapeChar '"' := by
  intro c
  rcases escapeChar_cases c with ⟨_, tail, htail⟩ | ⟨hne, _, h⟩
  · exact ⟨'\\', tail, htail, by decide⟩
  · exact ⟨c, [], h, hne⟩

theorem toList_string (text : String) :
    (string text).toList = '"' :: (text.toList.flatMap escapeChar ++ ['"']) := by
  simp [string]

/-- String literals end where their closing quote says. -/
theorem prefixFree_string : PrefixFree fun text ↦ (string text).toList := by
  intro text other rest others h
  simp only [toList_string] at h
  have ⟨hchars, hrest⟩ := prefixFree_escapeChar.terminated neverBegins_escapeChar (List.cons_eq_cons.1 h).2
  exact ⟨String.toList_inj.1 hchars, hrest⟩

theorem toList_array (items : List String) :
    (array items).toList = '[' :: ([','].intercalate (items.map String.toList) ++ [']']) := by
  rw [array, String.toList_append, String.toList_append, String.toList_intercalate]
  rfl

/-- Arrays are told apart when their items are and no item looks like a closing bracket. -/
theorem prefixFree_array {α : Type} {encode : α → String} (free : PrefixFree fun a ↦ (encode a).toList)
    (never : NeverBegins (fun a ↦ (encode a).toList) ']') :
    PrefixFree fun items : List α ↦ (array (items.map encode)).toList := by
  intro items others rest more h
  simp only [toList_array, List.map_map] at h
  exact free.separated never (by decide) (List.cons_eq_cons.1 h).2

end Json

/-! ## Listings -/

theorem RuleLine.toList_json (line : RuleLine) :
    line.json.toList = "\x7b\"left\":".toList ++ (Json.string line.left).toList ++ ",\"rights\":".toList ++
      (Json.array (line.rights.map Json.string)).toList ++ ['\x7d'] := by
  have hfields : Json.string "left" = "\"left\"" ∧ Json.string "rights" = "\"rights\"" := by decide
  simp [json, Json.object, hfields]

/-- No object for a line is the beginning of another. -/
theorem RuleLine.prefixFree_json : PrefixFree fun line : RuleLine ↦ line.json.toList := by
  have free := Json.prefixFree_array Json.prefixFree_string fun text ↦
    ⟨'"', _, Json.toList_string text, by decide⟩
  intro line other rest others h
  simp only [toList_json, List.append_assoc] at h
  have ⟨hleft, hmiddle⟩ := Json.prefixFree_string (List.append_cancel_left h)
  have harray := List.append_cancel_left hmiddle
  have ⟨hrights, hend⟩ := free harray
  cases line
  cases other
  exact ⟨congrArg₂ mk hleft hrights, List.append_cancel_left hend⟩

theorem Listing.toList_json (listing : Listing) :
    listing.json.toList = "\x7b\"productions\":".toList ++
      (Json.array (listing.lines.map RuleLine.json)).toList ++ ['\x7d'] := by
  have hfield : Json.string "productions" = "\"productions\"" := by decide
  simp [json, Json.object, hfield]

theorem Listing.prefixFree_json : PrefixFree fun listing : Listing ↦ listing.json.toList := by
  have free := Json.prefixFree_array RuleLine.prefixFree_json fun line ↦
    ⟨'\x7b', _, line.toList_json, by decide⟩
  intro listing other rest others h
  simp only [toList_json, List.append_assoc] at h
  have harray := List.append_cancel_left h
  have ⟨hlines, hend⟩ := free harray
  cases listing
  cases other
  exact ⟨congrArg mk hlines, List.append_cancel_left hend⟩

/-- Listings with the same JSON text are equal. -/
theorem Listing.json_injective : Function.Injective json := fun _ _ h ↦
  prefixFree_json.injective (congrArg String.toList h)

end GrammarForms
