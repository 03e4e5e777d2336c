/-!
# Inline elements

The elements that flow with the words around them, so that the space beside them is part of the
text. Everything that asks whether an element is inline asks `isInline`; it holds of exactly the
names of the catalog (`isInline_iff`), which are runs of lower-case letters (`isLower_of_isInline`).
-/

namespace MarkupTrim

/-- The names of the inline elements, in the order of the catalog. -/
def inlineNames : List String :=
  ["a", "b", "big", "i", "small", "tt", "abbr", "acronym", "cite", "code", "dfn", "em", "kbd",
   "strong", "samp", "time", "var", "bdo", "br", "img", "map", "object", "q", "span", "sub", "sup",
   "button", "input", "label", "select", "textarea"]

/-- Whether `name` is exactly the name of an inline element; case counts. -/
def isInline (name : String) : Bool := inlineNames.contains name

theorem isInline_iff {name : String} : isInline name = true ↔ name ∈ inlineNames := by
  simp [isInline]

/-- An inline name is a run of lower-case letters, so it holds nothing that ends a tag's name. -/
theorem isLower_of_isInline {name : String} (h : isInline name = true) :
    name ≠ "" ∧ name.toList.all Char.isLower = true := by
  have all : ∀ n ∈ inlineNames, n ≠ "" ∧ n.toList.all Char.isLower = true := by decide +kernel
  exact all name (isInline_iff.mp h)

end MarkupTrim
