import MarkupTrim.Proofs.Document.Layout
import MarkupTrim.Proofs.Document.Markup

/-! # Words beside inline tags

Words are kept apart at inline tags: what is solid and an opening tag that follows, a closing tag and
a word that follows (`Apart`). Whatever spaces and layout stand between them, collapsing takes them
away and repair puts one space there: a fragment gives for the whole what it gives for the two parts,
with one space between (`text_fragment_apart`). When the text is cut at this place the space is not
put back, since each fragment is repaired alone: the two characters on either side come to stand side
by side (`text_fragment_cut_apart`). -/

namespace MarkupTrim

open Scan Spacing

/-- **Words are kept apart** between two parts of a text that is scanned in `state`. -/
inductive Apart (state : State) (before ahead : String) : Prop where
  /-- Outside of tags an opening inline tag follows something solid. -/
  | opening : (classify before state).2 = .inText → EndsSolid before.toList → Opens ahead.toList →
      Apart state before ahead
  /-- A word follows a closing inline tag. -/
  | closing : Closes before.toList → StartsWord ahead.toList → Apart state before ahead

/-! ### The two sides -/

/-- Behind a closing tag a text may start, wherever the scan started. -/
theorem startsText_of_closes {cs : List Char} (h : Closes cs) (state : State) :
    StartsText state cs := by
  obtain ⟨name, hname, p, rfl⟩ := h
  have hgt := notMem_slash_name hname (c := '>') (by decide) (by decide)
  exact startsText_append_tag hgt state p

/-- Condensing keeps a closing tag at the end. -/
theorem closes_condensed {cs : List Char} (h : Closes cs) (state : State) :
    Closes (condensed state cs) := by
  obtain ⟨name, hname, p, rfl⟩ := h
  have hgt := notMem_slash_name hname (c := '>') (by decide) (by decide)
  exact ⟨name, hname, condensed state p, (condensed_append_tag hgt state p).symm⟩

/-- Condensing keeps an opening tag at the front. -/
theorem opens_condensed_inText {cs : List Char} (h : Opens cs) : Opens (condensed .inText cs) := by
  obtain ⟨c, rest, rfl, -⟩ := h.exists_eq
  have htag : condensed .inTag ('<' :: c :: rest) = '<' :: condensed .inTag (c :: rest) :=
    condensed_inTag ..
  rw [condensed_lt, ← htag]
  exact opens_condensed.mpr h

namespace Apart

variable {state : State} {before ahead : String} (h : Apart state before ahead)
include h

theorem after_eq : state.after before.toList = .inText := by
  rcases h with ⟨hstate, -, -⟩ | ⟨hcloses, -⟩
  · rwa [classify_eq] at hstate
  · exact (startsText_of_closes hcloses state).after_eq

/-- The character in front is not blank, and condensing keeps it. -/
theorem exists_getLast? : ∃ c, isBlank c = false ∧ before.toList.getLast? = some c ∧
    (condensed state before.toList).getLast? = some c := by
  have hsolid : EndsSolid before.toList := by
    rcases h with ⟨-, hsolid, -⟩ | ⟨hcloses, -⟩
    · exact hsolid
    · exact hcloses.endsSolid
  unfold EndsSolid at hsolid
  rcases hlast : before.toList.getLast? with _ | c
  · rw [hlast] at hsolid; cases hsolid
  · rw [hlast] at hsolid
    have hc : isBlank c = false := by simpa using hsolid
    have hkeep : (condensed state before.toList).getLast? = before.toList.getLast? :=
      getLast?_condensed_of (Or.inr (by rw [hlast]; exact hsolid))
    exact ⟨c, hc, rfl, by rw [hkeep, hlast]⟩

/-- The character that follows is not blank, and condensing keeps it. -/
theorem exists_head? : ∃ c, isBlank c = false ∧ ahead.toList.head? = some c ∧
    (condensed .inText ahead.toList).head? = some c := by
  have hsolid : ∃ c rest, ahead.toList = c :: rest ∧ isBlank c = false := by
    rcases h with ⟨-, -, hopens⟩ | ⟨-, hword⟩
    · obtain ⟨c, rest, he, -⟩ := hopens.exists_eq
      exact ⟨'<', c :: rest, he, by decide⟩
    · obtain ⟨c, rest, he, hc⟩ := hword.exists_eq
      exact ⟨c, rest, he, isBlank_of_isAlphanum hc⟩
  obtain ⟨c, rest, he, hc⟩ := hsolid
  rw [he]
  exact ⟨c, hc, rfl, head?_condensed hc rest⟩

/-- A space is missing between the two parts when they are condensed. -/
theorem gap : Gap (condensed state before.toList) (condensed .inText ahead.toList) := by
  obtain ⟨c, hc, -, hlast⟩ := h.exists_getLast?
  obtain ⟨d, -, hd, hhead⟩ := h.exists_head?
  rcases h with ⟨-, -, hopens⟩ | ⟨hcloses, hword⟩
  · refine Or.inl ⟨?_, opens_condensed_inText hopens⟩
    rw [EndsSolid, hlast]
    simpa using hc
  · refine Or.inr ⟨closes_condensed hcloses state, ?_⟩
    rw [StartsWord, hhead, ← hd]
    exact hword

/-- Whitespace between the two parts does not count, and both are condensed alone. -/
theorem condensed_append {run : List Char} (hrun : Slack run) :
    condensed state (before.toList ++ (run ++ ahead.toList)) =
      condensed state before.toList ++ condensed .inText ahead.toList := by
  have hafter := h.after_eq
  rcases h with ⟨-, -, hopens⟩ | ⟨hcloses, -⟩
  · obtain ⟨c, rest, he, -⟩ := hopens.exists_eq
    rw [he, ← List.append_assoc, condensed_append_lt, condensed_append_slack hrun hafter,
      condensed_lt]
  · rw [condensed_append_of_startsText (startsText_of_closes hcloses state),
      condensed_slack_append hrun]

/-- **One space is put between the two parts**, whatever whitespace stands there. -/
theorem minified_append {run : List Char} (hrun : Slack run) :
    minified state (before.toList ++ (run ++ ahead.toList)) =
      minified state before.toList ++ (' ' :: minified .inText ahead.toList) := by
  rw [MarkupTrim.minified_append h.after_eq (h.condensed_append hrun), spaceIf_pos h.gap]
  rfl

end Apart

namespace Document

/-- **Words at inline tags are one space apart.** Within one fragment, whatever spaces and layout stand
between two parts where words are kept apart, the text is that of the two parts with one space between
them. The document behind it is the same but for its counts. -/
theorem text_fragment_apart (state : State) (stats : Stats) (u w g : String)
    (hw : Slack w.toList) (h : Apart state u g) :
    let document : Document := { state, stats }
    let first := document.fragment u
    let second := first.document.fragment g
    let whole := document.fragment (u ++ w ++ g)
    whole.text = first.text ++ " " ++ second.text ∧
      whole.document = { second.document with stats := whole.document.stats } := by
  intro document first second whole
  have hafter : state.after u.toList = .inText := h.after_eq
  have hinput : (u ++ w ++ g).toList = u.toList ++ (w.toList ++ g.toList) := by simp
  constructor
  · have hfirst : first.text.toList = minified state u.toList :=
      toList_text_fragment_of_no_hint rfl rfl u
    have hsecond : second.text.toList = minified .inText g.toList := by
      rw [← hafter]
      exact toList_text_fragment_fragment rfl rfl u g
    have hwhole : whole.text.toList = minified state (u ++ w ++ g).toList :=
      toList_text_fragment_of_no_hint rfl rfl _
    rw [← String.toList_inj, hwhole, hinput, h.minified_append hw]
    simp [hfirst, hsecond]
  · have hfirst : first.document =
        { document with state := .inText, stats := first.document.stats } := by
      rw [← hafter]
      exact document_fragment rfl rfl u
    have hsecond : second.document =
        { first.document with
          state := first.document.state.after g.toList
          stats := second.document.stats } :=
      document_fragment (mode_fragment document u) (hintPending_fragment rfl u) g
    have hwhole : whole.document =
        { document with
          state := state.after (u ++ w ++ g).toList
          stats := whole.document.stats } :=
      document_fragment rfl rfl _
    have hspaces : State.inText.after w.toList = .inText := after_text (lt_notMem_slack hw)
    rw [hinput, State.after_append, State.after_append, hafter, hspaces] at hwhole
    rw [hfirst] at hsecond
    rw [hsecond]
    exact hwhole

/-- A word in front of an opening tag, and one behind a closing tag that was open already. -/
theorem text_fragment_apart_words :
    Slack "\n  ".toList ∧ Apart .inText "<p>Hello" "<b>World</b>" ∧
      (({} : Document).fragment ("<p>Hello" ++ "\n  " ++ "<b>World</b>")).text =
        (({} : Document).fragment "<p>Hello").text ++ " " ++
          ((({} : Document).fragment "<p>Hello").document.fragment "<b>World</b>").text ∧
      Apart .inTag "'>x</b>" "again" ∧
      (({ state := .inTag } : Document).fragment ("'>x</b>" ++ "\n  " ++ "again")).text =
        (({ state := .inTag } : Document).fragment "'>x</b>").text ++ " " ++
          ((({ state := .inTag } : Document).fragment "'>x</b>").document.fragment "again").text := by
  have hspaces : Slack "\n  ".toList := by decide +kernel
  have hopening : Apart .inText "<p>Hello" "<b>World</b>" :=
    .opening (by decide +kernel) (by decide +kernel) (by decide +kernel)
  have hclosing : Apart .inTag "'>x</b>" "again" := .closing (by decide +kernel) (by decide +kernel)
  exact ⟨hspaces, hopening, (text_fragment_apart .inText {} _ _ _ hspaces hopening).1,
    hclosing, (text_fragment_apart .inTag {} _ _ _ hspaces hclosing).1⟩

/-- **A cut between words loses their space.** Where words are kept apart and the text is cut within
the whitespace between them or beside it, the text in one piece has one space there. In two fragments
there is none: the characters on either side, which are not blank, come to stand side by side. -/
theorem text_fragment_cut_apart (u w w' v : String) (hw : Slack w.toList) (hw' : Slack w'.toList)
    (h : Apart .inText u v) :
    let first := ({} : Document).fragment (u ++ w)
    let second := first.document.fragment (w' ++ v)
    first.document.state = .inText ∧
      (minifyText ((u ++ w) ++ (w' ++ v))).text = first.text ++ " " ++ second.text ∧
      ∃ c d, isBlank c = false ∧ isBlank d = false ∧
        u.toList.getLast? = some c ∧ first.text.toList.getLast? = some c ∧
        v.toList.head? = some d ∧ second.text.toList.head? = some d := by
  intro first second
  have hafter : State.inText.after (u ++ w).toList = .inText := by
    rw [String.toList_append, State.after_append, h.after_eq, after_text (lt_notMem_slack hw)]
  have hstate : first.document.state = .inText := by
    rw [← hafter]
    exact state_fragment rfl _
  have hfirst : first.text.toList = minified .inText u.toList := by
    have htext : first.text.toList = minified .inText (u ++ w).toList :=
      toList_text_fragment_of_no_hint rfl rfl _
    rw [htext, String.toList_append, minified, condensed_append_slack hw h.after_eq, minified]
  have hsecond : second.text.toList = minified .inText v.toList := by
    have htext : second.text.toList = minified (State.inText.after (u ++ w).toList) (w' ++ v).toList :=
      toList_text_fragment_fragment rfl rfl _ _
    rw [htext, hafter, String.toList_append, minified, condensed_slack_append hw', minified]
  refine ⟨hstate, ?_, ?_⟩
  · have hrun : Slack (w.toList ++ w'.toList) := fun c hc =>
      (List.mem_append.mp hc).elim (hw c) (hw' c)
    have hwhole := h.minified_append hrun
    rw [← String.toList_inj, toList_text_minifyText]
    simp only [String.toList_append, List.append_assoc] at hwhole ⊢
    rw [hwhole, hfirst, hsecond]
    rfl
  · obtain ⟨c, hc, hlast, hlast'⟩ := h.exists_getLast?
    obtain ⟨d, hd, hhead, hhead'⟩ := h.exists_head?
    refine ⟨c, d, hc, hd, hlast, ?_, hhead, ?_⟩
    · rw [hfirst, minified, getLast?_fill, hlast']
    · rw [hsecond, head?_minified, hhead']

/-- A cut behind the line break between a word and a tag. -/
theorem text_fragment_cut_apart_words :
    Slack "\n".toList ∧ Slack "  ".toList ∧ Apart .inText "Hello" "<b>World</b>" ∧
      (minifyText (("Hello" ++ "\n") ++ ("  " ++ "<b>World</b>"))).text =
        (({} : Document).fragment ("Hello" ++ "\n")).text ++ " " ++
          ((({} : Document).fragment ("Hello" ++ "\n")).document.fragment
            ("  " ++ "<b>World</b>")).text := by
  have hbreak : Slack "\n".toList := by decide +kernel
  have hspaces : Slack "  ".toList := by decide +kernel
  have hapart : Apart .inText "Hello" "<b>World</b>" :=
    .opening (by decide +kernel) (by decide +kernel) (by decide +kernel)
  exact ⟨hbreak, hspaces, hapart,
    (text_fragment_cut_apart "Hello" "\n" "  " "<b>World</b>" hbreak hspaces hapart).2.1⟩

/-- A word and a tag that the cut brings together. -/
theorem text_fragment_cut_ne :
    let first := ({} : Document).fragment "x "
    let second := first.document.fragment "<b>y</b>"
    let whole := minifyText ("x " ++ "<b>y</b>")
    first.document.state = .inText ∧ first.text ++ second.text = "x<b>y</b>" ∧
      whole.text = "x <b>y</b>" ∧ first.text ++ second.text ≠ whole.text := by
  decide +kernel

end Document

end MarkupTrim
