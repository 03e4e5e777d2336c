import MarkupTrim.Proofs.Document.Seam
import MarkupTrim.Proofs.Spacing.Again

/-! # Minifying again

A minified text is scanned like the text it came from. Its texts have new spaces at their ends only,
so condensing takes them away again, and leaves those that were put into tags (`condensed_fill`).
What is left to a second run is to fill the gaps of texts, and that gives the minified text back iff
no space in a tag has made a gap in front of it: iff no two inline tags stand together
(`minifyText_minifyText_iff`). -/

namespace MarkupTrim

open Scan Spacing

/-- The gaps that are in tags, in a scan that starts in `start`. -/
def isGapInTag (start : State) (before ahead : List Char) : Bool :=
  isGap before ahead && decide (start.after before = .inTag)

variable {start : State}

theorem isGapInTag_of_inText {before : List Char} (h : start.after before = .inText)
    (ahead : List Char) : isGapInTag start before ahead = false := by
  simp [isGapInTag, h]

theorem isGapInTag_of_inTag {before : List Char} (h : start.after before = .inTag)
    (ahead : List Char) : isGapInTag start before ahead = isGap before ahead := by
  simp [isGapInTag, h]

theorem fills_isGapInTag (start : State) : Fills (isGapInTag start) where
  gap := fun _ _ h => isGap_iff.mp ((Bool.and_eq_true _ _).mp h).1
  name := fun before name hname ahead hopens => by
    have hafter := after_append_lt start before (notMem_name hname (c := '>') (by decide))
    rw [isGapInTag_of_inTag hafter]
    exact fills_isGap.name before name hname ahead hopens

/-! ### Texts -/

/-- New spaces beside a collapsed text go when it is collapsed again. -/
theorem collapse_spaced (first last : Prop) [Decidable first] [Decidable last] (a : List Char) :
    trimSpaces (dropLayout (spaceIf first ++ (trimSpaces (dropLayout a) ++ spaceIf last))) =
      trimSpaces (dropLayout a) := by
  rw [collapse_append_append (fun c hc => Or.inl (eq_of_mem_spaceIf hc))
    (fun c hc => Or.inl (eq_of_mem_spaceIf hc)), collapse_collapsed]

theorem fill_isGapInTag_text {before text : List Char} (h : start.after before = .inText)
    (hlt : '<' ∉ text) (ahead : List Char) :
    fill (fun x y => isGapInTag start x (y ++ ahead)) before text = text := by
  refine fill_eq_self fun as bs he _ => isGapInTag_of_inText ?_ _
  have has : '<' ∉ as := fun hmem => hlt (by rw [he]; exact List.mem_append_left _ hmem)
  rw [State.after_append, h, after_text has]

/-! ### Condensing what was filled -/

/-- **Condensing a filled text leaves the spaces in tags** and takes the others away. -/
theorem condensed_fill {state : State} (before : List Char) (h : start.after before = state)
    (cs : List Char) :
    condensed state (fill isGap before (condensed state cs)) =
      fill (isGapInTag start) before (condensed state cs) := by
  induction state, cs using scan_induction generalizing before with
  | text a ha =>
    have hlt := notMem_collapsed ha
    have hleft := fill_text (shut_of_inText h) hlt []
    have hright := fill_isGapInTag_text h hlt []
    have hspaced := collapse_spaced (Closes before ∧ StartsWord (trimSpaces (dropLayout a))) False a
    have hmem := lt_notMem_spaced (Closes before ∧ StartsWord (trimSpaces (dropLayout a))) False hlt
    rw [spaceIf_neg not_false, List.append_nil] at hspaced hmem
    simp only [List.append_nil] at hleft hright
    rw [condensed_text ha, hleft, hright, condensed_text hmem, hspaced]
  | enter a b ha ih =>
    have hlt := notMem_collapsed ha
    have hafter : start.after (before ++ trimSpaces (dropLayout a)) = .inText := by
      rw [State.after_append, h, after_text hlt]
    have hnext : start.after (before ++ trimSpaces (dropLayout a) ++ ['<']) = .inTag := by
      rw [State.after_append, hafter]; rfl
    rw [condensed_text_lt ha, fill_text_lt (shut_of_inText h) hlt,
      condensed_text_lt (lt_notMem_spaced _ _ hlt), collapse_spaced, ih _ hnext, fill_append,
      fill_isGapInTag_text h hlt, fill_cons_of_not_gap (isGapInTag_of_inText hafter _)]
  | rest => rfl
  | tag c cs ih =>
    have hnext : start.after (before ++ [c]) = State.inTag.next c := by
      rw [State.after_append, h]; rfl
    rw [condensed_inTag]
    rcases hg : isGap before (c :: condensed (State.inTag.next c) cs)
    · have hgap := (isGapInTag_of_inTag h _).trans hg
      rw [fill_cons_of_not_gap hg, fill_cons_of_not_gap hgap, condensed_inTag, ih _ hnext]
    · have hgap := (isGapInTag_of_inTag h _).trans hg
      rw [fill_cons_of_gap hg, fill_cons_of_gap hgap, condensed_inTag, State.next_inTag (by decide),
        condensed_inTag, ih _ hnext]

/-- **Minifying twice is minifying once** iff the condensed text has no two inline tags that stand
together behind something solid. -/
theorem minifyText_minifyText_iff (text : String) :
    (minifyText (minifyText text).text).text = (minifyText text).text ↔
      ¬ OpensTwice (condense text .inText).1.toList := by
  have hagain : condensed .inText (minified .inText text.toList) =
      fill (isGapInTag .inText) [] (condensed .inText text.toList) :=
    condensed_fill [] rfl _
  rw [← String.toList_inj, toList_text_minifyText, toList_text_minifyText, toList_condense,
    ← fill_isGap_fill_iff (fills_isGapInTag .inText), ← hagain]
  rfl

end MarkupTrim
