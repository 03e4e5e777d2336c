/-!
# Blank characters

Two classes of whitespace. A character is blank if it has the Unicode property `White_Space`; it is
layout if it is a tab, a carriage return or a line feed, which is what indenting a source puts
between its words. Layout is blank (`isBlank_of_isLayout`), and so is all that core counts as
whitespace (`isBlank_of_isWhitespace`).
-/

namespace MarkupTrim

/-- The ranges of code points with the Unicode property `White_Space`, ends included. -/
def blankRanges : List (Nat × Nat) :=
  [(0x9, 0xD), (0x20, 0x20), (0x85, 0x85), (0xA0, 0xA0), (0x1680, 0x1680), (0x2000, 0x200A),
   (0x2028, 0x2029), (0x202F, 0x202F), (0x205F, 0x205F), (0x3000, 0x3000)]

/-- Whether a character has the Unicode property `White_Space`. -/
def isBlank (c : Char) : Bool :=
  blankRanges.any fun range => range.1 ≤ c.toNat && c.toNat ≤ range.2

/-- Whether a character is a tab, a carriage return or a line feed. -/
def isLayout (c : Char) : Bool := c == '\t' || c == '\r' || c == '\n'

/-- The text without the blanks at its end. -/
def dropBlankEnd (text : String) : String :=
  String.ofList (text.toList.reverse.dropWhile isBlank).reverse

theorem isBlank_of_isLayout {c : Char} (h : isLayout c = true) : isBlank c = true := by
  simp only [isLayout, Bool.or_eq_true, beq_iff_eq] at h
  rcases h with (rfl | rfl) | rfl <;> decide

theorem isBlank_of_isWhitespace {c : Char} (h : c.isWhitespace = true) : isBlank c = true := by
  simp only [Char.isWhitespace, Bool.or_eq_true, decide_eq_true_eq] at h
  rcases h with ((rfl | rfl) | rfl) | rfl <;> decide

/-- A letter or digit of ASCII is not blank. -/
theorem isBlank_of_isAlphanum {c : Char} (h : c.isAlphanum = true) : isBlank c = false := by
  have key : (65 ≤ c.toNat ∧ c.toNat ≤ 90) ∨ (97 ≤ c.toNat ∧ c.toNat ≤ 122) ∨
      (48 ≤ c.toNat ∧ c.toNat ≤ 57) := by
    rcases (Bool.or_eq_true _ _).mp h with h | h
    · rcases (Bool.or_eq_true _ _).mp h with h | h
      · have h : 'A'.val ≤ c.val ∧ c.val ≤ 'Z'.val := of_decide_eq_true h
        exact Or.inl ⟨h.1, h.2⟩
      · have h := (Bool.and_eq_true _ _).mp h
        exact Or.inr (Or.inl ⟨of_decide_eq_true h.1, of_decide_eq_true h.2⟩)
    · have h := (Bool.and_eq_true _ _).mp h
      exact Or.inr (Or.inr ⟨of_decide_eq_true h.1, of_decide_eq_true h.2⟩)
  simp only [isBlank, blankRanges, List.any_cons, List.any_nil, Bool.or_false,
    Bool.or_eq_false_iff, Bool.and_eq_false_iff, decide_eq_false_iff_not]
  omega

theorem isBlank_of_isLower {c : Char} (h : c.isLower = true) : isBlank c = false := by
  have hword : (c.isUpper || c.isLower || c.isDigit) = true := by
    rw [h, Bool.or_true, Bool.true_or]
  exact isBlank_of_isAlphanum hword

end MarkupTrim
