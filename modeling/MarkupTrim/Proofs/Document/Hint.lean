import MarkupTrim.Proofs.Document.Seam
import MarkupTrim.Proofs.Spacing.Again

/-! # Announced anchors and literal anchors

An anchor that the host renders itself, against the same anchor in the text. The host is given one
space in front of the anchor, and one behind it if the next fragment starts with a word. In the text
the two seams are gaps like any other: in front of the anchor a space stands iff something solid is
in front of it, behind the anchor if a word or an opening inline tag follows. So both ways give the
same text iff something solid stands in front and no inline tag follows
(`announced_eq_literal_iff`). -/

namespace MarkupTrim

open Scan Spacing

/-- The characters of a rendered anchor: `<a` and what ends the name, `</a>` at the end, and nothing
that minifying it would change. -/
structure Anchor (cs : List Char) : Prop where
  start : ∃ c rest, cs = '<' :: 'a' :: c :: rest ∧ endsName c = true
  stop : "</a>".toList <:+ cs
  minified_eq : minified .inText cs = cs

variable {anchor : List Char} (ha : Anchor anchor)
include ha

theorem Anchor.startsText : StartsText .inText anchor := by
  obtain ⟨p, rfl⟩ := ha.stop
  refine Or.inr ⟨p ++ '<' :: ['/', 'a'], by simp, ?_⟩
  exact after_append_lt .inText p (by decide)

/-- The condensed anchor opens, whatever follows. -/
theorem Anchor.opens (gs : List Char) : Opens (condensed .inText (anchor ++ gs)) := by
  obtain ⟨c, rest, rfl, hc⟩ := ha.start
  have htag : condensed .inTag ('a' :: c :: (rest ++ gs)) =
      'a' :: c :: condensed (State.inTag.next c) (rest ++ gs) := by
    rw [condensed_inTag, State.next_inTag (by decide), condensed_inTag]
  simp only [List.cons_append]
  rw [condensed_lt, htag]
  exact ⟨"a", by decide, _, rfl, hc⟩

theorem Anchor.closes : Closes (condensed .inText anchor) := by
  have hcloses : Closes (minified .inText anchor) := by
    rw [ha.minified_eq]
    exact ⟨"a", by decide, ha.stop⟩
  exact closes_of_closes_fill hcloses

/-- An anchor in the text: a space in front of it behind something solid, and one behind it in front
of a word or an opening inline tag. -/
theorem Anchor.minified_append_append {fs : List Char} (hf : State.inText.after fs = .inText)
    (gs : List Char) :
    minified .inText (fs ++ (anchor ++ gs)) =
      minified .inText fs ++ (spaceIf (EndsSolid (minified .inText fs)) ++
        (anchor ++ (spaceIf (StartsWord (condensed .inText gs) ∨ Opens (condensed .inText gs)) ++
          minified .inText gs))) := by
  have hcut : condensed .inText (fs ++ (anchor ++ gs)) =
      condensed .inText fs ++ condensed .inText (anchor ++ gs) := by
    obtain ⟨c, rest, rfl, -⟩ := ha.start
    simp only [List.cons_append]
    rw [condensed_append_lt, condensed_lt]
  have hfront : Gap (condensed .inText fs) (condensed .inText (anchor ++ gs)) ↔
      EndsSolid (minified .inText fs) := by
    have hopens := ha.opens gs
    have hsolid : EndsSolid (minified .inText fs) ↔ EndsSolid (condensed .inText fs) :=
      endsSolid_fill
    obtain ⟨c, rest, he, -⟩ := hopens.exists_eq
    rw [he] at hopens ⊢
    rw [gap_lt_iff, hsolid]
    exact and_iff_left hopens
  have hback : Gap (condensed .inText anchor) (condensed .inText gs) ↔
      StartsWord (condensed .inText gs) ∨ Opens (condensed .inText gs) := by
    have hsolid := ha.closes.endsSolid
    unfold Gap
    rw [and_iff_right hsolid, and_iff_right ha.closes, or_comm]
  have hanchor := condensed_append_of_startsText ha.startsText gs
  rw [minified_append hf hcut, minified_append ha.startsText.after_eq hanchor, ha.minified_eq,
    spaceIf_congr hfront, spaceIf_congr hback]

/-- The two ways compared: with one space in front of the anchor and, in front of a word, one behind
it, or with the spaces of the text. -/
theorem Anchor.spaces_eq_iff (solid word opens : Prop) [Decidable solid] [Decidable word]
    [Decidable opens] (hword : word → ¬ opens) (fs gs : List Char) :
    fs ++ ([' '] ++ (anchor ++ (spaceIf word ++ gs))) =
        fs ++ (spaceIf solid ++ (anchor ++ (spaceIf (word ∨ opens) ++ gs))) ↔
      solid ∧ ¬ opens := by
  obtain ⟨c, rest, he, -⟩ := ha.start
  rw [List.append_cancel_left_eq]
  by_cases hs : solid
  · rw [spaceIf_pos hs, List.append_cancel_left_eq, List.append_cancel_left_eq,
      List.append_cancel_right_eq]
    by_cases ho : opens
    · have hw : ¬ word := fun hw => hword hw ho
      rw [spaceIf_neg hw, spaceIf_pos (Or.inr ho)]
      simp [ho]
    · rw [spaceIf_congr (or_iff_left ho)]
      simp [hs, ho]
  · -- One text goes on with a space, the other with the `<` of the anchor.
    rw [spaceIf_neg hs]
    simp [hs, he]

omit ha

namespace Document

/-- **An announced anchor comes out like a literal one** iff what the text in front of it gives ends
in something solid and what follows it does not open with an inline tag. -/
theorem announced_eq_literal_iff (f g a : String) (hf : (classify f .inText).2 = .inText)
    (hstart : ∃ c rest, a.toList = '<' :: 'a' :: c :: rest ∧ endsName c = true)
    (hstop : "</a>".toList <:+ a.toList) (hmin : (minifyText a).text = a) :
    let first := ({} : Document).fragment f
    let space := first.document.announce "a"
    let second := space.document.fragment g
    first.text ++ space.text ++ a ++ second.text = (minifyText (f ++ a ++ g)).text ↔
      EndsSolid first.text.toList ∧ ¬ Opens (condense g .inText).1.toList := by
  intro first space second
  have ha : Anchor a.toList := ⟨hstart, hstop, by rw [← toList_text_minifyText, hmin]⟩
  have hafter : State.inText.after f.toList = .inText := by rwa [classify_eq] at hf
  have hfirst : first.text.toList = minified .inText f.toList :=
    toList_text_fragment_of_no_hint rfl rfl f
  have hfmode : first.document.mode = .minify := mode_fragment {} f
  have hmode : space.document.mode = .minify := (mode_announce _ "a").trans hfmode
  have hstate : space.document.state = .inText := by
    rw [state_announce, state_fragment rfl]
    exact hafter
  have hspace : space.text = " " := text_announce hfmode "a"
  have hpending : space.document.hintPending = true := hintPending_announce hfmode "a"
  have hsecond : second.text.toList =
      spaceIf (StartsWord (condensed .inText g.toList)) ++ minified .inText g.toList := by
    rw [toList_text_fragment hmode, hstate, ← spaceIf_congr (startsWord_minified _ _), hpending]
    simp only [true_and, spaceIf]
  rw [← String.toList_inj, toList_text_minifyText, toList_condense]
  simp only [String.toList_append, List.append_assoc, hfirst, hsecond, hspace]
  rw [ha.minified_append_append hafter]
  exact ha.spaces_eq_iff _ _ _ StartsWord.not_opens _ _

/-- An anchor between two words. -/
theorem announced_eq_literal_words :
    let first := ({} : Document).fragment "Click\n"
    let space := first.document.announce "a"
    let second := space.document.fragment "\nnow"
    (classify "Click\n" .inText).2 = .inText ∧
      (∃ c rest, "<a href='/'>this <b>link</b></a>".toList = '<' :: 'a' :: c :: rest ∧
        endsName c = true) ∧
      "</a>".toList <:+ "<a href='/'>this <b>link</b></a>".toList ∧
      (minifyText "<a href='/'>this <b>link</b></a>").text = "<a href='/'>this <b>link</b></a>" ∧
      first.text ++ space.text ++ "<a href='/'>this <b>link</b></a>" ++ second.text =
        (minifyText ("Click\n" ++ "<a href='/'>this <b>link</b></a>" ++ "\nnow")).text := by
  intro first space second
  have hscan : (classify "Click\n" .inText).2 = .inText := by decide +kernel
  have hstart : ∃ c rest, "<a href='/'>this <b>link</b></a>".toList = '<' :: 'a' :: c :: rest ∧
      endsName c = true := ⟨' ', _, rfl, by decide⟩
  have hstop : "</a>".toList <:+ "<a href='/'>this <b>link</b></a>".toList := by decide +kernel
  have hmin : (minifyText "<a href='/'>this <b>link</b></a>").text =
      "<a href='/'>this <b>link</b></a>" := by decide +kernel
  refine ⟨hscan, hstart, hstop, hmin, ?_⟩
  exact (announced_eq_literal_iff "Click\n" "\nnow" _ hscan hstart hstop hmin).mpr
    (by decide +kernel)

end Document

end MarkupTrim
