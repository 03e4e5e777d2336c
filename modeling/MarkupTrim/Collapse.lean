import MarkupTrim.Text.Blank
import MarkupTrim.Text.Edit
import MarkupTrim.Text.Slice

/-!
# Collapsing text

Text between tags loses its layout characters wherever they stand and its spaces at both ends;
spaces between words stay as they are, runs included. Layout goes first, since its loss can bring a
space to an end.
-/

namespace MarkupTrim

/-- The list without the spaces at its two ends. -/
def trimSpaces (cs : List Char) : List Char :=
  ((cs.dropWhile (· == ' ')).reverse.dropWhile (· == ' ')).reverse

/-- The text without its layout characters. -/
def dropLayout (cs : List Char) : List Char := cs.filter fun c => !isLayout c

/-- The text without layout characters and without spaces at its ends. A text that has no layout
characters is only cut at its ends, so a stretch of it is the answer. Otherwise the text is built
without them. That text is the answer itself if it is no bytes longer than what trimming leaves of
it; if it is, what trimming leaves is built once more. -/
def collapse (text : String) : Edit :=
  if text.toList.any isLayout then
    let stripped := dropLayout text.toList
    let trimmed := trimSpaces stripped
    if Text.byteCount trimmed = Text.byteCount stripped then .built (String.ofList stripped)
    else .built (String.ofList trimmed)
  else .kept (String.ofList (trimSpaces text.toList))

theorem dropLayout_of_not_any {cs : List Char} (h : cs.any isLayout = false) :
    dropLayout cs = cs := by
  simp only [List.any_eq_false, Bool.not_eq_true] at h
  exact List.filter_eq_self.mpr fun c hc => by simp [h c hc]

theorem trimSpaces_sublist (cs : List Char) : (trimSpaces cs).Sublist cs := by
  have h := List.dropWhile_sublist (l := (cs.dropWhile (· == ' ')).reverse) (· == ' ')
  exact (List.reverse_sublist.mp (by simpa [trimSpaces] using h)).trans (List.dropWhile_sublist _)

/-- **All ways of collapsing give the same text.** -/
theorem toList_collapse (text : String) :
    (collapse text).text.toList = trimSpaces (dropLayout text.toList) := by
  unfold collapse
  split
  · dsimp only
    split
    · next hbytes =>
      rw [Text.eq_of_sublist_of_byteCount_eq (trimSpaces_sublist _) hbytes, Edit.text_built,
        String.toList_ofList]
    · rw [Edit.text_built, String.toList_ofList]
  · next h =>
    rw [dropLayout_of_not_any (Bool.eq_false_iff.mpr h), Edit.text_kept, String.toList_ofList]

theorem isKept_collapse (text : String) :
    (collapse text).isKept = !text.toList.any isLayout := by
  unfold collapse
  split
  · next h =>
    rw [h]
    dsimp only
    split <;> rfl
  · next h => simp [h]

end MarkupTrim
