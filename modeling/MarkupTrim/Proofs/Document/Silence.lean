import MarkupTrim.Proofs.Document.History

/-! # A run without its announcements

Two runs of one document: one with all its calls, and one with the announcements left out (`silent`).
Announcements move neither the state nor what a fragment is minified to; all they can do is arm the
hint. So a fragment gives in both runs the same text, but for one space in front of a word if the
calls before it arm the hint (`run_silent`). The space is there for the first fragment that is not
empty, and no later fragment sees the hint. -/

namespace MarkupTrim.Document

open Scan Spacing

/-- The calls without the announcements. -/
def silent (calls : List Call) : List Call := calls.filter fun call => call.fragment?.isSome

theorem silent_append (as bs : List Call) : silent (as ++ bs) = silent as ++ silent bs :=
  List.filter_append as bs

theorem silent_fragment (text : String) (calls : List Call) :
    silent (.fragment text :: calls) = .fragment text :: silent calls := rfl

theorem silent_announce (name : String) (calls : List Call) :
    silent (.announce name :: calls) = silent calls := rfl

/-- The fragments are those of the whole run. -/
theorem input_silent (calls : List Call) : input (silent calls) = input calls := by
  induction calls with
  | nil => rfl
  | cons call calls ih =>
    cases call with
    | fragment text => rw [silent_fragment, input_fragment, input_fragment, ih]
    | announce name => rw [silent_announce, input_announce, ih]

/-- Without announcements no hint is armed. -/
theorem not_armed_silent (calls : List Call) : ¬ Armed (silent calls) := by
  rintro ⟨before, name, after, he, -⟩
  have hmem : Call.announce name ∈ silent calls := by rw [he]; simp
  have hsome := (List.mem_filter.mp hmem).2
  cases hsome

variable {document : Document}

/-- **What a fragment gives behind a run**: its minified text, behind a space if that starts with a word
and the calls arm the hint. -/
theorem toList_text_fragment_after (hm : document.mode = .minify)
    (hh : document.hintPending = false) (calls : List Call) (text : String) :
    let plain := minified (document.state.after (input calls).toList) text.toList
    ((document.after calls).fragment text).text.toList =
      spaceIf (Armed calls ∧ StartsWord plain) ++ plain := by
  intro plain
  have hmode : (document.after calls).mode = .minify := (mode_after document calls).trans hm
  have harmed := hintPending_after_iff hm hh calls
  rw [toList_text_fragment hmode, state_after hm, spaceIf_congr (and_congr_left' harmed.symm)]
  rfl

theorem ne_space_append (text : String) : text ≠ " " ++ text := by
  intro h
  have hlen := congrArg (fun t : String => t.toList.length) h
  simp at hlen

/-- A text behind one space, if something holds, differs from the text iff it does. -/
theorem eq_or_spaced {text bare : String} {p : Prop} [Decidable p]
    (h : text.toList = spaceIf p ++ bare.toList) :
    (text = bare ∨ text = " " ++ bare) ∧ (text = " " ++ bare ↔ p) := by
  by_cases hp : p
  · rw [spaceIf_pos hp] at h
    have hspaced : text = " " ++ bare := by rw [← String.toList_inj, h, String.toList_append]; rfl
    exact ⟨Or.inr hspaced, iff_of_true hspaced hp⟩
  · rw [spaceIf_neg hp, List.nil_append, String.toList_inj] at h
    subst h
    exact ⟨Or.inl rfl, iff_of_false (ne_space_append text) hp⟩

/-- **Announcements only ever add one leading space.** A fragment of a run leaves the state that it
leaves in the run without announcements, and gives the text that it gives there, or that text behind
one space: the latter iff the fragment is not empty, the text starts with a letter or digit, and the
calls before the fragment arm the hint. -/
theorem run_silent (state : State) (stats : Stats) (earlier later : List Call) (text : String) :
    let document : Document := { state, stats }
    let calls := earlier ++ .fragment text :: later
    ∃ reply bare,
      (document.run calls)[earlier.length]? = some reply ∧
        (document.run (silent calls))[(silent earlier).length]? = some bare ∧
        reply.document.state = bare.document.state ∧
        (reply.text = bare.text ∨ reply.text = " " ++ bare.text) ∧
        (reply.text = " " ++ bare.text ↔
          text ≠ "" ∧ StartsWord bare.text.toList ∧ Armed earlier) := by
  intro document calls
  refine ⟨(document.after earlier).fragment text, (document.after (silent earlier)).fragment text,
    getElem?_run document earlier (.fragment text) later, ?_, ?_, ?_⟩
  · rw [silent_append, silent_fragment]
    exact getElem?_run document (silent earlier) (.fragment text) (silent later)
  · rw [state_fragment (mode_after document earlier), state_after rfl,
      state_fragment (mode_after document (silent earlier)), state_after rfl, input_silent]
  · have hreply : ((document.after earlier).fragment text).text.toList = _ :=
      toList_text_fragment_after rfl rfl earlier text
    have hbare : ((document.after (silent earlier)).fragment text).text.toList = _ :=
      toList_text_fragment_after rfl rfl (silent earlier) text
    rw [spaceIf_neg fun h => not_armed_silent earlier h.1, List.nil_append, input_silent] at hbare
    rw [← hbare] at hreply
    obtain ⟨hcases, hiff⟩ := eq_or_spaced hreply
    refine ⟨hcases, hiff.trans ⟨fun ⟨harmed, hword⟩ => ⟨?_, hword, harmed⟩,
      fun ⟨_, hword, harmed⟩ => ⟨harmed, hword⟩⟩⟩
    -- An empty fragment gives nothing that could start with a word.
    rintro rfl
    rw [hbare] at hword
    cases hword

end MarkupTrim.Document
