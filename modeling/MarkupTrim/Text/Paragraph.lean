/-!
# Paragraphs

The first paragraph of a text is what stands in front of its first empty line. A text without a line
feed is one paragraph (`firstParagraph_eq_self`).
-/

namespace MarkupTrim

/-- The characters in front of the first two line feeds that stand together. -/
def beforeEmptyLine : List Char → List Char
  | [] => []
  | '\n' :: '\n' :: _ => []
  | c :: cs => c :: beforeEmptyLine cs

/-- The first paragraph of a text. -/
def firstParagraph (text : String) : String := String.ofList (beforeEmptyLine text.toList)

theorem beforeEmptyLine_eq_self {cs : List Char} (h : '\n' ∉ cs) : beforeEmptyLine cs = cs := by
  fun_induction beforeEmptyLine cs with
  | case1 => rfl
  | case2 => exact absurd List.mem_cons_self h
  | case3 c cs _ ih => rw [ih fun hc => h (List.mem_cons_of_mem _ hc)]

/-- A text without a line feed is one paragraph. -/
theorem firstParagraph_eq_self {text : String} (h : '\n' ∉ text.toList) :
    firstParagraph text = text := by
  rw [firstParagraph, beforeEmptyLine_eq_self h, String.ofList_toList]

end MarkupTrim
