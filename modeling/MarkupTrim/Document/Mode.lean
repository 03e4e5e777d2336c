/-!
# Modes

How a document's fragments are treated. Tools that work on the source text at design time must see
it as it stands; all else gets it minified.
-/

namespace MarkupTrim

/-- How the fragments of a document are treated. -/
inductive Mode where
  /-- Every fragment is minified. -/
  | minify
  /-- Every fragment is given back as it stands. -/
  | passThrough
deriving DecidableEq, Repr

namespace Mode

/-- Documents are minified unless their host says otherwise. -/
instance : Inhabited Mode := ⟨minify⟩

/-- Whether fragments are given back as they stand. -/
def isPassThrough (mode : Mode) : Bool := mode == passThrough

end Mode

end MarkupTrim
