import MarkupTrim.Proofs.Document.Words

/-! # Behind the last tag of an element

What becomes of the whitespace between the last tag of an inline element and the text that follows
it. The last tag is the closing tag, or the only tag of an element that has none (`LastTag`).
Collapsing takes the whitespace away in any case. Repair puts one space back behind a closing tag in
front of a letter or digit of ASCII, and at no other place: the tag and the text then stand side by
side (`minifyText_lastTag`). -/

namespace MarkupTrim

open Scan Spacing

/-- The inline elements that have no closing tag. -/
def voidNames : List String := ["br", "img", "input"]

/-- **The last tag of an inline element**: its closing tag, or the only tag of an element that has no
closing tag, with any attributes. -/
inductive LastTag : TagKind → List Char → Prop where
  | closing {name : String} : name ∈ inlineNames → LastTag .closing (closingTag name)
  | opening {name : String} {attributes : List Char} : name ∈ voidNames → NameEnds attributes →
      '<' ∉ attributes → '>' ∉ attributes →
      LastTag .opening ('<' :: (name.toList ++ attributes ++ ['>']))

theorem mem_inlineNames_of_mem_voidNames : ∀ name ∈ voidNames, name ∈ inlineNames := by
  decide +kernel

namespace LastTag

variable {kind : TagKind} {tag : List Char} (h : LastTag kind tag)
include h

/-- A last tag has one `<` and one `>`, at its ends. -/
theorem exists_eq : ∃ tail, tag = '<' :: (tail ++ ['>']) ∧ '<' ∉ tail ∧ '>' ∉ tail := by
  cases h with
  | @closing name hname =>
    exact ⟨'/' :: name.toList, rfl, notMem_slash_name hname (by decide) (by decide),
      notMem_slash_name hname (by decide) (by decide)⟩
  | @opening name attributes hvoid _ hlt hgt =>
    have hname := mem_inlineNames_of_mem_voidNames name hvoid
    refine ⟨name.toList ++ attributes, rfl, ?_, ?_⟩
    · exact List.mem_append.not.mpr (not_or.mpr ⟨notMem_name hname (by decide), hlt⟩)
    · exact List.mem_append.not.mpr (not_or.mpr ⟨notMem_name hname (by decide), hgt⟩)

theorem startsText (state : State) (before : List Char) : StartsText state (before ++ tag) := by
  obtain ⟨tail, rfl, -, hgt⟩ := h.exists_eq
  exact startsText_append_tag hgt state before

theorem condensed_append (state : State) (before : List Char) :
    condensed state (before ++ tag) = condensed state before ++ tag := by
  obtain ⟨tail, rfl, -, hgt⟩ := h.exists_eq
  exact condensed_append_tag hgt state before

/-- Only a closing tag closes. -/
theorem closes_append_iff (before : List Char) : Closes (before ++ tag) ↔ kind = .closing := by
  cases h with
  | @closing name hname => exact iff_of_true ⟨name, hname, List.suffix_append _ _⟩ rfl
  | @opening name attributes hvoid hends hlt hgt =>
    have hname := mem_inlineNames_of_mem_voidNames name hvoid
    obtain ⟨tail, he, hlt, -⟩ := (opening hvoid hends hlt hgt).exists_eq
    obtain ⟨c, cs, hc, hlower⟩ := exists_name_eq_cons hname
    refine iff_of_false (not_closes_lt ?_ ?_) TagKind.noConfusion
    · rw [(List.cons.inj he).2]
      simpa using hlt
    · rw [hc]
      exact fun hslash => ne_of_isLower hlower (by decide) (Option.some.inj hslash)

/-- What is minified still ends with the tag. -/
theorem suffix_minified (state : State) (before : List Char) :
    tag <:+ minified state (before ++ tag) := by
  obtain ⟨tail, he, hlt, hgt⟩ := h.exists_eq
  rw [minified, h.condensed_append, fill_append, he, fill_tag hlt hgt, ← List.append_assoc]
  exact List.suffix_append _ _

/-- **Between the tag and the text behind it** one space is left, or none. -/
theorem minified_append (state : State) (before : List Char) {run ahead : List Char}
    (hrun : Slack run) {c : Char} (hhead : ahead.head? = some c) (hblank : isBlank c = false)
    (hlt : c ≠ '<') :
    minified state (before ++ tag ++ (run ++ ahead)) =
      minified state (before ++ tag) ++
        (spaceIf (kind = .closing ∧ c.isAlphanum = true) ++ minified .inText ahead) := by
  have hstarts := h.startsText state before
  obtain ⟨rest, rfl⟩ := List.head?_eq_some_iff.mp hhead
  obtain ⟨ds, hds⟩ := List.head?_eq_some_iff.mp (head?_condensed hblank rest)
  have hgap : Gap (condensed state (before ++ tag)) (condensed .inText (c :: rest)) ↔
      kind = .closing ∧ c.isAlphanum = true := by
    rw [hds, gap_cons_iff hlt, h.condensed_append, h.closes_append_iff]
  rw [MarkupTrim.minified_append hstarts.after_eq, spaceIf_congr hgap]
  rw [condensed_append_of_startsText hstarts, condensed_slack_append hrun]

end LastTag

/-- **What is left behind the last tag of an element.** Whatever spaces and layout stand between the
tag and a text that starts with another character, the whole gives what the two parts give, with one
space between them if the tag closes its element and a letter or digit of ASCII follows, and with
nothing between them if not. The first part still ends with the tag, and the second starts with the
character. -/
theorem minifyText_lastTag (u tag w v : String) {kind : TagKind} (htag : LastTag kind tag.toList)
    (hw : Slack w.toList) {c : Char} (hhead : v.toList.head? = some c)
    (hblank : isBlank c = false) (hlt : c ≠ '<') :
    let first := (minifyText (u ++ tag)).text
    let second := (minifyText v).text
    let space := if kind = .closing ∧ c.isAlphanum = true then " " else ""
    (minifyText (u ++ tag ++ w ++ v)).text = first ++ space ++ second ∧
      tag.toList <:+ first.toList ∧ second.toList.head? = some c := by
  intro first second space
  have hspace : space.toList = spaceIf (kind = .closing ∧ c.isAlphanum = true) :=
    toList_ite_space _
  have hfirst : first.toList = minified .inText (u.toList ++ tag.toList) := by
    rw [← String.toList_append]
    exact toList_text_minifyText _
  have hsecond : second.toList = minified .inText v.toList := toList_text_minifyText v
  refine ⟨?_, ?_, ?_⟩
  · have hwhole := htag.minified_append .inText u.toList hw hhead hblank hlt
    rw [← String.toList_inj, toList_text_minifyText]
    simp only [String.toList_append, List.append_assoc] at hwhole ⊢
    rw [hwhole, hspace, hfirst, hsecond]
  · rw [hfirst]
    exact htag.suffix_minified .inText u.toList
  · obtain ⟨rest, he⟩ := List.head?_eq_some_iff.mp hhead
    rw [hsecond, head?_minified, he, head?_condensed hblank]

/-- A closing tag in front of a word and in front of a letter that is not of ASCII, and a tag without
an end. -/
theorem minifyText_lastTag_words :
    Slack "\n ".toList ∧ LastTag .closing "</b>".toList ∧
      LastTag .opening "<br class=c/>".toList ∧
      (minifyText ("<b>x" ++ "</b>" ++ "\n " ++ "y")).text =
        (minifyText ("<b>x" ++ "</b>")).text ++ " " ++ (minifyText "y").text ∧
      (minifyText ("<b>x" ++ "</b>" ++ "\n " ++ "é")).text =
        (minifyText ("<b>x" ++ "</b>")).text ++ "" ++ (minifyText "é").text ∧
      (minifyText ("x" ++ "<br class=c/>" ++ "\n " ++ "y")).text =
        (minifyText ("x" ++ "<br class=c/>")).text ++ "" ++ (minifyText "y").text := by
  have hspaces : Slack "\n ".toList := by decide +kernel
  have hclosing : LastTag .closing "</b>".toList := @LastTag.closing "b" (by decide +kernel)
  have hopening : LastTag .opening "<br class=c/>".toList :=
    @LastTag.opening "br" " class=c/".toList (by decide +kernel) (by decide +kernel)
      (by decide +kernel) (by decide +kernel)
  exact ⟨hspaces, hclosing, hopening,
    (minifyText_lastTag "<b>x" "</b>" "\n " "y" hclosing hspaces rfl (by decide) (by decide)).1,
    (minifyText_lastTag "<b>x" "</b>" "\n " "é" hclosing hspaces rfl (by decide) (by decide)).1,
    (minifyText_lastTag "x" "<br class=c/>" "\n " "y" hopening hspaces rfl (by decide)
      (by decide)).1⟩

/-- Two tags with a line break behind them that is not made good: nothing blank is left. -/
theorem minifyText_lastTag_ne :
    let text := "<br>" ++ "\n" ++ "y" ++ "</b>" ++ "\n" ++ "é"
    LastTag .opening "<br>".toList ∧ LastTag .closing "</b>".toList ∧ Slack "\n".toList ∧
      (minifyText text).text = "<br>y</b>é" ∧
      (minifyText text).text.toList.any isBlank = false := by
  have hopening : LastTag .opening "<br>".toList :=
    @LastTag.opening "br" [] (by decide +kernel) rfl List.not_mem_nil List.not_mem_nil
  have hclosing : LastTag .closing "</b>".toList := @LastTag.closing "b" (by decide +kernel)
  exact ⟨hopening, hclosing, by decide +kernel, by decide +kernel, by decide +kernel⟩

end MarkupTrim
