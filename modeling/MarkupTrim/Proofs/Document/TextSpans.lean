import MarkupTrim.Proofs.Document.Seam
import MarkupTrim.Proofs.Spacing.Again

/-! # The texts of a minified text

What a fragment gives is scanned again. Each of its text spans is a collapsed text with at most one
space at each end, and a space stands at an end only beside an inline tag that wants it there
(`Tight`, `textSpans_fragment`): behind a closing tag in front of a word, and in front of an opening
tag behind something solid. So nothing is left that could be taken away. -/

namespace MarkupTrim

open Scan Spacing

/-! ### A text by its characters -/

/-- A text may start in the filled text only where one may start in the text. -/
theorem startsText_of_fill {gap : List Char → List Char → Bool} {state : State}
    {before as : List Char} (h : StartsText state (fill gap before as)) : StartsText state as := by
  rcases h with ⟨hnil, hstate⟩ | ⟨init, he, hinit⟩
  · rcases as with _ | ⟨c, as⟩
    · exact Or.inl ⟨rfl, hstate⟩
    · rw [fill_cons] at hnil
      simp at hnil
  · have hlast : as.getLast? = some '>' := by
      have hfill : (fill gap before as).getLast? = as.getLast? := getLast?_fill before as
      rw [← hfill, he, List.getLast?_concat]
    obtain ⟨as, rfl⟩ := List.getLast?_eq_some_iff.mp hlast
    rw [fill_append, fill_cons, fill_nil, ← List.append_assoc] at he
    have hcut := (List.append_inj' he rfl).1
    refine Or.inr ⟨as, rfl, ?_⟩
    rw [← hcut, State.after_append, after_fill] at hinit
    rcases spaceIf_cases (gap (before ++ as) ['>'] = true) with hspace | ⟨hspace, -⟩
    · rwa [hspace] at hinit
    · rwa [hspace, State.after_cons, next_space] at hinit

/-- The texts of a condensed text are collapsed. -/
theorem collapse_of_condensed_eq {state : State} {cs as core ds : List Char}
    (h : condensed state cs = as ++ (core ++ ds)) (has : StartsText state as) (hlt : '<' ∉ core)
    (hds : ds = [] ∨ ∃ rest, ds = '<' :: rest) : trimSpaces (dropLayout core) = core := by
  -- The condensed text is condensed again part by part, and no part gets shorter.
  have hagain := condensed_condensed state cs
  rw [h, condensed_append_of_startsText has] at hagain
  have hcore : ∃ es, condensed .inText (core ++ ds) = trimSpaces (dropLayout core) ++ es ∧
      es.length ≤ ds.length := by
    rcases hds with rfl | ⟨rest, rfl⟩
    · exact ⟨[], by rw [List.append_nil, condensed_text hlt, List.append_nil], Nat.le_refl _⟩
    · refine ⟨_, condensed_text_lt hlt rest, ?_⟩
      have := (condensed_sublist .inTag rest).length_le
      simpa using this
  obtain ⟨es, hes, hlen⟩ := hcore
  rw [hes] at hagain
  have htotal := congrArg List.length hagain
  simp only [List.length_append] at htotal
  have hfront := (condensed_sublist state as).length_le
  have hmiddle := (collapsed_sublist core).length_le
  exact (collapsed_sublist core).eq_of_length (by omega)

/-- A cut of the minified text where a text may start is a cut of the condensed text. -/
theorem cut_minified {state : State} {cs us ws : List Char} (h : minified state cs = us ++ ws)
    (hus : StartsText state us) :
    ∃ as bs, condensed state cs = as ++ bs ∧ StartsText state as ∧ us = filledFront isGap as bs ∧
      ws = fill isGap as bs := by
  obtain ⟨as, bs, hcs, ⟨hfront, hback⟩ | ⟨c, ds, -, hfront, -⟩⟩ := cut_fill h
  · exact ⟨as, bs, hcs, startsText_of_fill (hfront ▸ hus), hfront, hback⟩
  · -- Behind a new space no text starts.
    rcases hus with ⟨rfl, -⟩ | ⟨init, rfl, -⟩
    · simp at hfront
    · exact absurd (List.append_inj' hfront rfl).2 (by decide)

/-- **A text of a minified text**: a collapsed text, behind a space if a closing tag stands in front
and it starts with a word, and in front of a space if it ends in something solid and an opening tag
follows. -/
theorem exists_of_minified_eq {state : State} {cs us text vs : List Char}
    (h : minified state cs = us ++ (text ++ vs)) (hus : StartsText state us) (hlt : '<' ∉ text)
    (hvs : vs = [] ∨ ∃ rest, vs = '<' :: rest) :
    ∃ lead core tail, text = lead ++ (core ++ tail) ∧ trimSpaces (dropLayout core) = core ∧
      (lead = [] ∨ lead = [' '] ∧ Closes us ∧ StartsWord core) ∧
      (tail = [] ∨ tail = [' '] ∧ EndsSolid (us ++ (lead ++ core)) ∧ Opens vs) := by
  obtain ⟨as, bs, hcs, has, rfl, hback⟩ := cut_minified h hus
  have hshut : Shut as := shut_of_inText has.after_eq
  obtain ⟨core, ds, tail, rfl, hcore, hds, rfl, htail⟩ := exists_of_fill_eq hshut hback.symm hlt hvs
  refine ⟨_, core, tail, rfl, collapse_of_condensed_eq hcs has hcore hds, ?_, ?_⟩
  · rcases spaceIf_cases (Closes as ∧ StartsWord core) with hspace | ⟨hspace, hcloses, hword⟩
    · exact Or.inl hspace
    · exact Or.inr ⟨hspace, closes_filledFront fills_isGap hcloses, hword⟩
  · refine htail.imp_right fun ⟨hspace, hsolid, hopens⟩ => ⟨hspace, ?_, hopens⟩
    have hfront := @filledFront_append isGap as core ds
    rw [fill_text hshut hcore] at hfront
    rw [← hfront]
    exact endsSolid_fill.mpr hsolid

/-! ### A text span between tag spans -/

/-- The tag in front of a text span closes if all that stands in front does. -/
theorem closes_last {state : State} {left right : List (Kind × List Char)} {text : List Char}
    (hsides : Sides state left text right) (h : Closes (left.flatMap (·.2))) :
    ∃ init tag, left = init ++ [(.tag, tag)] ∧ Closes tag := by
  rcases hsides.left with ⟨rfl, -⟩ | ⟨init, tag, rfl, -, hinit⟩
  · exact absurd h not_closes_nil
  refine ⟨init, _, rfl, ?_⟩
  simp only [List.flatMap_append, List.flatMap_cons, List.flatMap_nil, List.append_nil] at h
  rcases hinit with ⟨rfl, -⟩ | hhead
  · exact h
  · -- A closing tag that starts in front of this one would have two `<`.
    by_contra hnot
    obtain ⟨name, hname, before, u, w, -, he, hsplit⟩ :=
      closes_cut (by simp) fun hiff => hnot (hiff.mp h)
    obtain ⟨rest, rfl⟩ := List.head?_eq_some_iff.mp hhead
    have hlt := notMem_slash_name hname (c := '<') (by decide) (by decide)
    rw [hsplit, ← List.append_cancel_right he] at hlt
    exact hlt (by simp)

/-- The tag behind a text span starts with `<name` if all that follows does. -/
theorem opens_first {state : State} {left right : List (Kind × List Char)} {text : List Char}
    (hsides : Sides state left text right) (h : Opens (right.flatMap (·.2))) :
    ∃ tag rest, right = (.tag, tag) :: rest ∧ ∃ name ∈ inlineNames, ∃ after,
      tag = '<' :: (name.toList ++ after) ∧ NameEnds (after ++ rest.flatMap (·.2)) := by
  rcases hsides.right with rfl | ⟨tag, rest, rfl, hend⟩
  · exact absurd h not_opens_nil
  obtain ⟨name, hname, after, he, hends⟩ := h
  refine ⟨_, rest, rfl, name, hname, ?_⟩
  have he : tag ++ rest.flatMap (·.2) = name.toList ++ after := (List.cons.inj he).2
  rcases List.append_eq_append_iff.mp he with ⟨x, hx, hrest⟩ | ⟨x, rfl, rfl⟩
  · -- The name has no `>`, so the tag goes on to the end.
    have hnil : rest = [] := hend.resolve_left fun hmem =>
      notMem_name hname (c := '>') (by decide) (by rw [hx]; exact List.mem_append_left x hmem)
    subst hnil
    obtain ⟨rfl, rfl⟩ := List.append_eq_nil_iff.mp hrest.symm
    exact ⟨[], by rw [hx, List.append_nil, List.append_nil], hends⟩
  · exact ⟨x, rfl, hends⟩

/-- The last of the spans is a tag that ends with a closing inline tag. -/
def EndsClosing (spans : List Span) : Prop :=
  ∃ init tag, spans = init ++ [tag] ∧ tag.kind = .tag ∧ Closes tag.text.toList

/-- The first of the spans is a tag that starts with `<name`, name inline, and behind the name comes
what ends it, or nothing. -/
def StartsOpening (spans : List Span) : Prop :=
  ∃ tag rest, spans = tag :: rest ∧ tag.kind = .tag ∧ ∃ name ∈ inlineNames, ∃ after,
    tag.text.toList = '<' :: (name.toList ++ after) ∧
      NameEnds (after ++ rest.flatMap (·.text.toList))

/-- **A text span with no space to spare** between the spans `left` and `right`: a collapsed text
`core`, with a space at an end only where an inline tag wants one. -/
structure Tight (left right : List Span) (lead core tail : String) : Prop where
  collapsed : (collapse core).text = core
  inFront : lead = "" ∨ lead = " " ∧ EndsClosing left ∧ StartsWord core.toList
  behind : tail = "" ∨ tail = " " ∧ StartsOpening right ∧
    EndsSolid (left.flatMap (·.text.toList) ++ (lead ++ core).toList)

theorem ofList_spaces {cs : List Char} {p : Prop} (h : cs = [] ∨ cs = [' '] ∧ p) :
    String.ofList cs = "" ∨ String.ofList cs = " " ∧ p := by
  rcases h with rfl | ⟨rfl, hp⟩
  · exact Or.inl rfl
  · exact Or.inr ⟨rfl, hp⟩

theorem flatMap_toSpan (spans : List (Kind × List Char)) :
    (spans.map toSpan).flatMap (·.text.toList) = spans.flatMap (·.2) := by
  simp [List.flatMap_map, toSpan]

theorem tight_of_sides {state : State} {left right : List (Kind × List Char)}
    {lead core tail text : List Char} (hsides : Sides state left text right)
    (hcore : trimSpaces (dropLayout core) = core)
    (hlead : lead = [] ∨ lead = [' '] ∧ Closes (left.flatMap (·.2)) ∧ StartsWord core)
    (htail : tail = [] ∨ tail = [' '] ∧ EndsSolid (left.flatMap (·.2) ++ (lead ++ core)) ∧
      Opens (right.flatMap (·.2))) :
    Tight (left.map toSpan) (right.map toSpan) (String.ofList lead) (String.ofList core)
      (String.ofList tail) where
  collapsed := by rw [← String.toList_inj, toList_collapse, String.toList_ofList, hcore]
  inFront := by
    refine ofList_spaces (hlead.imp_right fun ⟨hspace, hcloses, hword⟩ => ⟨hspace, ?_, ?_⟩)
    · obtain ⟨init, tag, rfl, hclosing⟩ := closes_last hsides hcloses
      refine ⟨init.map toSpan, toSpan (.tag, tag), by simp, rfl, ?_⟩
      rwa [toSpan, String.toList_ofList]
    · rwa [String.toList_ofList]
  behind := by
    refine ofList_spaces (htail.imp_right fun ⟨hspace, hsolid, hopens⟩ => ⟨hspace, ?_, ?_⟩)
    · obtain ⟨tag, rest, rfl, name, hname, after, htag, hends⟩ := opens_first hsides hopens
      refine ⟨toSpan (.tag, tag), rest.map toSpan, rfl, rfl, name, hname, after, ?_, ?_⟩
      · rw [toSpan, String.toList_ofList, htag]
      · rwa [flatMap_toSpan]
    · rw [flatMap_toSpan, String.toList_append, String.toList_ofList, String.toList_ofList]
      exact hsolid

namespace Document

/-- **Nothing that could be taken away is left in what a fragment gives**: scanned again it ends in
the same state, and each of its text spans is tight. -/
theorem textSpans_fragment (state : State) (stats : Stats) (text : String) :
    let output := (({ state, stats } : Document).fragment text).text
    (classify output state).2 = (classify text state).2 ∧
      ∀ left span right, (classify output state).1 = left ++ span :: right → span.kind = .text →
        ∃ lead core tail, span.text = lead ++ core ++ tail ∧ Tight left right lead core tail := by
  intro output
  have hout : output.toList = minified state text.toList :=
    toList_text_fragment_of_no_hint rfl rfl text
  refine ⟨by rw [classify_eq, classify_eq, hout, after_minified], fun left span right h hkind => ?_⟩
  have hspans : (classify output state).1 = (stretches state output.toList).map toSpan := by
    rw [classify_eq]; rfl
  rw [hspans] at h
  obtain ⟨lefts, others, hsplit, rfl, hothers⟩ := List.map_eq_append_iff.mp h
  obtain ⟨⟨kind, cs⟩, rights, rfl, rfl, rfl⟩ := List.map_eq_cons_iff.mp hothers
  obtain rfl : kind = .text := hkind
  have hsides := sides_of_stretches hsplit
  have hjoin := flatMap_stretches state output.toList
  rw [hsplit, List.flatMap_append, List.flatMap_cons, hout] at hjoin
  have hright : rights.flatMap (·.2) = [] ∨ ∃ rest, rights.flatMap (·.2) = '<' :: rest := by
    rcases hsides.right with rfl | ⟨tag, rest, rfl, -⟩
    · exact Or.inl rfl
    · exact Or.inr ⟨_, rfl⟩
  obtain ⟨lead, core, tail, rfl, hcore, hlead, htail⟩ :=
    exists_of_minified_eq hjoin.symm hsides.startsText hsides.lt hright
  refine ⟨_, _, _, ?_, tight_of_sides hsides hcore hlead htail⟩
  rw [toSpan, String.ofList_append, String.ofList_append, String.append_assoc]

end Document

end MarkupTrim
