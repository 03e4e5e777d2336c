import MarkupTrim.Proofs.Document.Seam
import MarkupTrim.Proofs.Document.Silence

/-! # Going on with an open tag

A fragment that a document meets inside a tag goes on with that tag. Up to the first `<` or `>` its
characters are the rest of the tag for sure (`tagRest`), and minifying leaves them where they are, at
the front (`tagRest_prefix_minified`). The hint does not ask for the state, though: if one is pending
and the fragment starts with a letter or digit, a space comes in front, inside the tag. So the tag is
gone on with as it stands iff that is not so (`tagRest_prefix_fragment_iff`). -/

namespace MarkupTrim

open Scan Spacing

/-- What stands in front of the first `<` or `>`. -/
def tagRest (cs : List Char) : List Char := cs.takeWhile fun c => c != '<' && c != '>'

theorem notMem_tagRest (cs : List Char) : '<' ∉ tagRest cs ∧ '>' ∉ tagRest cs := by
  have hall (c : Char) (hc : c ∈ tagRest cs) : (c != '<' && c != '>') = true :=
    List.mem_takeWhile_imp (p := fun c => c != '<' && c != '>') hc
  exact ⟨fun hlt => absurd (hall _ hlt) (by decide), fun hgt => absurd (hall _ hgt) (by decide)⟩

/-- A stretch without `<` at the very front is left as it is. -/
theorem fill_front {as : List Char} (hlt : '<' ∉ as) (bs : List Char) :
    fill isGap [] (as ++ bs) = as ++ fill isGap as bs := by
  have hshut : Shut [] := @shut_of_inText .inText [] rfl
  rw [fill_append, fill_text hshut hlt, spaceIf_neg fun h => not_closes_nil h.1]
  rfl

/-- **Inside a tag the rest of the tag comes first**, as it stands. -/
theorem tagRest_prefix_minified (cs : List Char) : tagRest cs <+: minified .inTag cs := by
  obtain ⟨hlt, hgt⟩ := notMem_tagRest cs
  obtain ⟨bs, hbs⟩ : tagRest cs <+: cs := List.takeWhile_prefix _
  have hcondensed : condensed .inTag cs = tagRest cs ++ condensed .inTag bs := by
    conv_lhs => rw [← hbs, condensed_append (after_tag hgt), condensed_tag hgt]
  rw [minified, hcondensed, fill_front hlt]
  exact List.prefix_append _ _

/-- Inside a tag the first character stays. -/
theorem startsWord_minified_inTag (cs : List Char) :
    StartsWord (minified .inTag cs) ↔ StartsWord cs := by
  rw [startsWord_minified]
  rcases cs with _ | ⟨c, cs⟩
  · rfl
  · rw [condensed_inTag]
    rfl

/-- A text that starts with a letter or digit has it in front of the first `<` or `>`. -/
theorem exists_tagRest_eq_cons {cs : List Char} (h : StartsWord cs) :
    ∃ c rest, tagRest cs = c :: rest ∧ c ≠ ' ' := by
  obtain ⟨c, rest, rfl, hc⟩ := h.exists_eq
  have hne (d : Char) (hd : d.isAlphanum = false) : c ≠ d := by
    rintro rfl
    rw [hd] at hc
    cases hc
  refine ⟨c, tagRest rest, List.takeWhile_cons_of_pos ?_, hne ' ' (by decide)⟩
  simp [hne '<' (by decide), hne '>' (by decide)]

namespace Document

/-- **How an open tag is gone on with.** Behind any run of a fresh document that ends inside a tag, the
next fragment gives the rest of that tag first, as it stands, unless the calls arm the hint and the
fragment starts with a letter or digit. Then, and only then, a space comes in front of it. -/
theorem tagRest_prefix_fragment_iff (calls : List Call) (text : String)
    (hs : (({} : Document).after calls).state = .inTag) :
    let given := ((({} : Document).after calls).fragment text).text.toList
    let rest := tagRest text.toList
    let spaced := Armed calls ∧ StartsWord text.toList
    (rest <+: given ↔ ¬ spaced) ∧ (spaced → ' ' :: rest <+: given) := by
  intro given rest spaced
  have hgiven : given = spaceIf spaced ++ minified .inTag text.toList := by
    have hafter : given = _ := @toList_text_fragment_after {} rfl rfl calls text
    rw [← state_after rfl, hs] at hafter
    rw [hafter, spaceIf_congr (and_congr_right' (startsWord_minified_inTag text.toList))]
  have hrest : rest <+: minified .inTag text.toList := tagRest_prefix_minified text.toList
  by_cases hspaced : spaced
  · obtain ⟨c, cs, hc, hspace⟩ : ∃ c cs, rest = c :: cs ∧ c ≠ ' ' := exists_tagRest_eq_cons hspaced.2
    rw [hgiven, spaceIf_pos hspaced, List.singleton_append]
    refine ⟨iff_of_false ?_ (not_not_intro hspaced), fun _ => List.cons_prefix_cons.mpr ⟨rfl, hrest⟩⟩
    rw [hc]
    exact fun hpre => hspace (List.cons_prefix_cons.mp hpre).1
  · rw [hgiven, spaceIf_neg hspaced, List.nil_append]
    exact ⟨iff_of_true hrest hspaced, fun h => absurd h hspaced⟩

/-- The value of an attribute, cut while a hint is pending, gone on with by a word and by a quote. -/
theorem tagRest_prefix_fragment_value :
    let calls : List Call := [.fragment "<a href=\"x", .announce "a"]
    let document := ({} : Document).after calls
    document.state = .inTag ∧ Armed calls ∧
      ' ' :: tagRest "b\">".toList <+: (document.fragment "b\">").text.toList ∧
      tagRest "\">".toList <+: (document.fragment "\">").text.toList := by
  intro calls document
  have hstate : document.state = .inTag := by decide +kernel
  have harmed : Armed calls := by decide +kernel
  have hword := (tagRest_prefix_fragment_iff calls "b\">" hstate).2 ⟨harmed, by decide +kernel⟩
  have hquote := (tagRest_prefix_fragment_iff calls "\">" hstate).1.mpr fun h =>
    absurd h.2 (by decide +kernel)
  exact ⟨hstate, harmed, hword, hquote⟩

/-- A space in the value of an attribute that was cut between two fragments. -/
theorem not_tagRest_prefix_fragment :
    let document := ({} : Document).after [.fragment "<a href=\"x", .announce "a"]
    document.state = .inTag ∧ (document.fragment "b\">").text = " b\">" ∧
      ¬ tagRest "b\">".toList <+: (document.fragment "b\">").text.toList := by
  decide +kernel

end Document

end MarkupTrim
