import MarkupTrim.Proofs.Document.Fragment
import MarkupTrim.Proofs.Scan.Sides
import MarkupTrim.Proofs.Spacing.Seam

/-! # A document cut outside of tags

A text that is cut where a tag starts, or right behind one, is condensed part by part
(`condensed_append_lt`, `condensed_append_of_startsText`). Outside of tags that is all there is to
the cut but one space that may be missing there (`minified_append`). -/

namespace MarkupTrim

open Scan Spacing

theorem shut_of_inText {state : State} {cs : List Char} (h : state.after cs = .inText) :
    Shut cs := by
  rintro before inner rfl
  by_contra hmem
  rw [after_append_lt state before hmem] at h
  cases h

theorem condensed_append_of_startsText {state : State} {as : List Char} (h : StartsText state as)
    (bs : List Char) : condensed state (as ++ bs) = condensed state as ++ condensed .inText bs := by
  rcases h with ⟨rfl, rfl⟩ | ⟨init, rfl, hinit⟩
  · rfl
  · rw [List.append_assoc, condensed_append hinit, condensed_append hinit, List.append_assoc]
    congr 1
    exact condensed_inTag '>' bs

theorem condensed_lt (cs : List Char) :
    condensed .inText ('<' :: cs) = '<' :: condensed .inTag cs :=
  condensed_append_lt .inText [] cs

/-- **Outside of tags a cut shows only where a space is missing.** -/
theorem minified_append {state : State} {as bs cs : List Char} (has : state.after as = .inText)
    (h : condensed state cs = condensed state as ++ condensed .inText bs) :
    minified state cs =
      minified state as ++
        (spaceIf (Gap (condensed state as) (condensed .inText bs)) ++ minified .inText bs) := by
  have hshut : Shut (condensed state as) := shut_of_inText (by rw [after_condensed, has])
  unfold minified
  rw [h, fill_append_of_shut hshut]

end MarkupTrim
