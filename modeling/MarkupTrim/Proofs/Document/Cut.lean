import MarkupTrim.Proofs.Document.Fragment
import MarkupTrim.Proofs.Spacing.Cut

/-! # A document cut within a tag

Two fragments, the first of which ends within a tag, against the two in one. The scan does not notice
the cut, and neither does condensing; but gaps are filled fragment by fragment. So the state is the
same and the texts are the same iff the cut does not show (`fragment_append_iff`): a tag whose name is
cut, a `<` right behind the cut and a closing tag that is cut are seen in one fragment only. -/

namespace MarkupTrim

open Scan Spacing

/-- Minified parts of a text cut in a tag make up the minified text iff the cut does not show. -/
theorem minified_append_iff {state : State} {as : List Char} (h : state.after as = .inTag)
    (bs : List Char) :
    minified state as ++ minified .inTag bs = minified state (as ++ bs) ↔
      ¬ CutShows (condensed state as) (condensed .inTag bs) := by
  rw [← fill_append_iff, minified, minified, minified, condensed_append h]

namespace Document

/-- **Cutting a document within a tag** does not change the state behind it, and changes the text iff
the cut shows in the condensed fragments. -/
theorem fragment_append_iff (state : State) (stats : Stats) (f g : String)
    (h : (({ state, stats } : Document).fragment f).document.state = .inTag) :
    let document : Document := { state, stats }
    let first := document.fragment f
    let second := first.document.fragment g
    let whole := document.fragment (f ++ g)
    second.document.state = whole.document.state ∧
      (first.text ++ second.text = whole.text ↔
        ¬ CutShows (condense f state).1.toList (condense g .inTag).1.toList) := by
  intro document first second whole
  have hmode : first.document.mode = .minify := mode_fragment document f
  have hhint : first.document.hintPending = false := hintPending_fragment rfl f
  have hstate : first.document.state = .inTag := h
  have hscan : first.document.state = state.after f.toList := state_fragment rfl f
  have hafter : state.after f.toList = .inTag := hscan.symm.trans hstate
  constructor
  · have hsecond : second.document.state = first.document.state.after g.toList :=
      state_fragment hmode g
    have hwhole : whole.document.state = state.after (f ++ g).toList := state_fragment rfl _
    rw [hsecond, hwhole, hstate, String.toList_append, State.after_append, hafter]
  · have hfirst : first.text.toList = minified state f.toList :=
      toList_text_fragment_of_no_hint rfl rfl f
    have hsecond : second.text.toList = minified first.document.state g.toList :=
      toList_text_fragment_of_no_hint hmode hhint g
    have hwhole : whole.text.toList = minified state (f ++ g).toList :=
      toList_text_fragment_of_no_hint rfl rfl _
    rw [← String.toList_inj, String.toList_append, hfirst, hsecond, hwhole, hstate,
      String.toList_append, minified_append_iff hafter, toList_condense, toList_condense]

/-- A cut in an attribute's value does not show. -/
theorem fragment_append_value :
    (({} : Document).fragment "x<a href='y").document.state = .inTag ∧
      ¬ CutShows (condense "x<a href='y" .inText).1.toList (condense "'>z" .inTag).1.toList :=
  ⟨by decide +kernel,
    (fragment_append_iff .inText {} "x<a href='y" "'>z" (by decide +kernel)).2.mp
      (by decide +kernel)⟩

/-- A cut right behind the `<` does: the space in front of the tag is missing. -/
theorem fragment_append_ne :
    let first := ({} : Document).fragment "x<"
    let second := first.document.fragment "a>"
    let whole := ({} : Document).fragment ("x<" ++ "a>")
    first.document.state = .inTag ∧ first.text ++ second.text = "x<a>" ∧ whole.text = "x <a>" ∧
      first.text ++ second.text ≠ whole.text := by
  decide +kernel

end Document

end MarkupTrim
