import MarkupTrim.Proofs.Document.Condensed
import MarkupTrim.Proofs.Spacing.Repaired

/-! # What a call does

A fragment in minify mode by its characters: it is condensed and its gaps are filled (`minified`), a
pending hint may put one space in front (`toList_text_fragment`), and the state is the machine's
behind it (`state_fragment`). -/

namespace MarkupTrim

open Scan Spacing

/-- A run of characters condensed and with its gaps filled. -/
def minified (state : State) (cs : List Char) : List Char := fill isGap [] (condensed state cs)

@[simp] theorem minified_nil (state : State) : minified state [] = [] := rfl

/-- Spaces do not move a scan. -/
theorem after_fill {gap : List Char → List Char → Bool} (state : State) (before cs : List Char) :
    state.after (fill gap before cs) = state.after cs := by
  induction cs generalizing state before with
  | nil => rfl
  | cons c cs ih =>
    rcases hg : gap before (c :: cs)
    · rw [fill_cons_of_not_gap hg, State.after_cons, ih, State.after_cons]
    · rw [fill_cons_of_gap hg, State.after_cons, next_space, State.after_cons, ih, State.after_cons]

theorem after_minified (state : State) (cs : List Char) :
    state.after (minified state cs) = state.after cs := by
  rw [minified, after_fill, after_condensed]

/-- No space is put in front of a text. -/
theorem head?_minified (state : State) (cs : List Char) :
    (minified state cs).head? = (condensed state cs).head? := by
  unfold minified
  rcases condensed state cs with _ | ⟨c, ds⟩
  · rfl
  · rw [fill_cons_of_not_gap (isGap_eq_false_iff.mpr (not_gap_nil (c :: ds)))]
    rfl

theorem startsWord_minified (state : State) (cs : List Char) :
    StartsWord (minified state cs) ↔ StartsWord (condensed state cs) := by
  rw [StartsWord, StartsWord, head?_minified]

/-- No space is put behind a text. -/
theorem getLast?_minified (state : State) (cs : List Char) :
    (minified state cs).getLast? = (condensed state cs).getLast? := getLast?_fill _ _

theorem toList_minify (fragment : String) (state : State) :
    (minify fragment state).1.toList = minified state fragment.toList := by
  rw [minify, toList_repair, toList_condense]; rfl

theorem minify_snd (fragment : String) (state : State) :
    (minify fragment state).2 = state.after fragment.toList := by
  rw [← condense_snd]; rfl

theorem toList_eq_nil_of_isEmpty {text : String} (h : text.isEmpty = true) : text.toList = [] := by
  rw [String.isEmpty_iff.mp h]; rfl

namespace Document

variable {document : Document}

/-! ### A fragment -/

theorem fragment_of_isEmpty (hm : document.mode = .minify) {text : String}
    (h : text.isEmpty = true) : document.fragment text = { text := "", document } := by
  simp only [fragment, hm, h, if_true]

theorem mode_fragment (document : Document) (text : String) :
    (document.fragment text).document.mode = document.mode := by
  rcases hm : document.mode <;> by_cases hempty : text.isEmpty = true <;>
    simp [fragment, hm, hempty]

/-- **The state behind a fragment is the machine's.** -/
theorem state_fragment (hm : document.mode = .minify) (text : String) :
    (document.fragment text).document.state = document.state.after text.toList := by
  by_cases hempty : text.isEmpty = true
  · rw [fragment_of_isEmpty hm hempty, toList_eq_nil_of_isEmpty hempty]; rfl
  · rw [← minify_snd]
    simp [fragment, hm, hempty]

/-- **What a fragment gives**: its minified characters, behind one space if a hint is pending and
they start with a letter or digit. -/
theorem toList_text_fragment (hm : document.mode = .minify) (text : String) :
    (document.fragment text).text.toList =
      (if document.hintPending = true ∧ StartsWord (minified document.state text.toList) then [' ']
        else []) ++ minified document.state text.toList := by
  by_cases hempty : text.isEmpty = true
  · rw [fragment_of_isEmpty hm hempty, toList_eq_nil_of_isEmpty hempty, minified_nil,
      if_neg fun h => by cases h.2]
    rfl
  · rw [← toList_minify]
    by_cases hspace : document.hintPending = true ∧ StartsWord (minify text document.state).1.toList
    · have hneeds : (document.hintPending && startsWithWord (minify text document.state).1) = true :=
        (Bool.and_eq_true _ _).mpr hspace
      rw [if_pos hspace]
      simp [fragment, hm, hempty, hneeds]
    · have hneeds : (document.hintPending && startsWithWord (minify text document.state).1) = false :=
        Bool.eq_false_iff.mpr fun h => hspace ((Bool.and_eq_true _ _).mp h)
      rw [if_neg hspace]
      simp [fragment, hm, hempty, hneeds]

theorem toList_text_fragment_of_no_hint (hm : document.mode = .minify)
    (hh : document.hintPending = false) (text : String) :
    (document.fragment text).text.toList = minified document.state text.toList := by
  rw [toList_text_fragment hm, hh]
  simp

/-- A fragment never arms the hint. -/
theorem hintPending_fragment (hh : document.hintPending = false) (text : String) :
    (document.fragment text).document.hintPending = false := by
  rcases hm : document.mode <;> by_cases hempty : text.isEmpty = true <;>
    simp [fragment, hm, hempty, hh]

/-- What the fragment behind another one gives. -/
theorem toList_text_fragment_fragment (hm : document.mode = .minify)
    (hh : document.hintPending = false) (first second : String) :
    ((document.fragment first).document.fragment second).text.toList =
      minified (document.state.after first.toList) second.toList := by
  have hmode : (document.fragment first).document.mode = .minify := by rw [mode_fragment, hm]
  rw [toList_text_fragment_of_no_hint hmode (hintPending_fragment hh first), state_fragment hm]

/-- Without a pending hint a fragment moves the state and the counts, and nothing else. -/
theorem document_fragment (hm : document.mode = .minify) (hh : document.hintPending = false)
    (text : String) :
    (document.fragment text).document =
      { document with
        state := document.state.after text.toList
        stats := (document.fragment text).document.stats } := by
  rw [← state_fragment hm text]
  obtain ⟨mode, state, hint, stats⟩ := document
  obtain rfl : mode = .minify := hm
  obtain rfl : hint = false := hh
  by_cases hempty : text.isEmpty = true <;> simp [fragment, hempty]

/-! ### An announcement -/

theorem mode_announce (document : Document) (name : String) :
    (document.announce name).document.mode = document.mode := by
  unfold announce
  split <;> rfl

/-- An inline element is answered with a space and arms the hint, any other takes it back. -/
theorem text_announce (hm : document.mode = .minify) (name : String) :
    (document.announce name).text = if isInline name then " " else "" := by
  simp only [announce, hm]

theorem hintPending_announce (hm : document.mode = .minify) (name : String) :
    (document.announce name).document.hintPending = isInline name := by
  simp only [announce, hm]

theorem state_announce (document : Document) (name : String) :
    (document.announce name).document.state = document.state := by
  unfold announce
  split <;> rfl

end Document

/-- **What a text of its own gives**: its minified characters. -/
theorem toList_text_minifyText (text : String) :
    (minifyText text).text.toList = minified .inText text.toList :=
  Document.toList_text_fragment_of_no_hint rfl rfl text

end MarkupTrim
