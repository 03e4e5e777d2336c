import MarkupTrim.Proofs.Document.Fragment
import MarkupTrim.Proofs.Spacing.Again

/-! # When markup is kept

The tag spans of what a fragment gives, against those of the fragment. Condensing leaves tags alone,
but the gaps are filled without regard to tags: a `<` within a tag is taken for the start of one. So
the state behind a fragment is always kept, and the tag spans are kept iff nothing within a tag looks
like an opening inline tag behind something solid (`OpensInTag`, `tagSpans_fragment_iff`). -/

namespace MarkupTrim

open Scan Spacing

/-- Within a tag, behind a character that is not blank, stands what looks like an opening inline
tag. -/
def OpensInTag (state : State) (cs : List Char) : Prop :=
  ∃ as bs, cs = as ++ bs ∧ state.after as = .inTag ∧ EndsSolid as ∧ Opens bs

/-! ### Filling in and out of tags -/

/-- **Filling keeps the characters in tags iff no gap is in a tag.** -/
theorem tagChars_fill_iff {gap : List Char → List Char → Bool} (hgap : NotBeforeSpace gap)
    (state : State) (before cs : List Char) :
    tagChars state (fill gap before cs) = tagChars state cs ↔
      ∀ as bs, cs = as ++ bs → bs ≠ [] → state.after as = .inTag →
        gap (before ++ as) bs = false := by
  induction cs generalizing state before with
  | nil =>
    refine ⟨fun _ as bs he hbs => ?_, fun _ => rfl⟩
    exact absurd (List.append_eq_nil_iff.mp he.symm).2 hbs
  | cons c cs ih =>
    have ih := ih (state.next c) (before ++ [c])
    simp only [List.append_assoc, List.singleton_append] at ih
    rw [forall_cuts_cons]
    simp only [State.after_cons, State.after_nil, List.append_nil]
    rw [← ih]
    rcases hg : gap before (c :: cs)
    · rw [fill_cons_of_not_gap hg, tagChars_cons, tagChars_cons]
      simp
    · rw [fill_cons_of_gap hg, tagChars_cons state ' ', next_space, tagChars_cons, tagChars_cons]
      cases state with
      | inText => simp [State.kindOf]
      | inTag =>
        have hc : ' ' ≠ c := by rintro rfl; rw [hgap] at hg; cases hg
        simp [State.kindOf, hc]

/-! ### Condensing in tags -/

theorem condensed_eq_append {cs us vs : List Char} (hus : '>' ∉ us)
    (h : condensed .inTag cs = us ++ vs) : ∃ bs, cs = us ++ bs ∧ vs = condensed .inTag bs := by
  induction us generalizing cs with
  | nil => exact ⟨cs, rfl, h.symm⟩
  | cons u us ih =>
    rcases cs with _ | ⟨c, cs⟩
    · cases h
    rw [condensed_inTag] at h
    obtain ⟨rfl, htail⟩ := List.cons.inj h
    rw [State.next_inTag fun he => hus (by simp [he])] at htail
    obtain ⟨bs, rfl, rfl⟩ := ih (fun hm => hus (List.mem_cons_of_mem _ hm)) htail
    exact ⟨bs, rfl, rfl⟩

theorem nameEnds_condensed {cs : List Char} : NameEnds (condensed .inTag cs) ↔ NameEnds cs := by
  rcases cs with _ | ⟨c, cs⟩
  · rfl
  · rw [condensed_inTag]; rfl

theorem opens_condensed {cs : List Char} : Opens (condensed .inTag cs) ↔ Opens cs := by
  have hgt : ∀ name ∈ inlineNames, '>' ∉ '<' :: name.toList := fun name hname =>
    notMem_lt_name hname (by decide) (by decide)
  constructor
  · rintro ⟨name, hname, rest, he, hends⟩
    obtain ⟨bs, rfl, rfl⟩ := condensed_eq_append (hgt name hname) he
    exact ⟨name, hname, bs, rfl, nameEnds_condensed.mp hends⟩
  · rintro ⟨name, hname, rest, rfl, hends⟩
    refine ⟨name, hname, condensed .inTag rest, ?_, nameEnds_condensed.mpr hends⟩
    rw [← List.cons_append, condensed_append (after_tag (hgt name hname))]
    rw [condensed_tag (hgt name hname), List.cons_append]

/-- A closing tag ends in text. -/
theorem not_closes_of_inTag {state : State} {cs : List Char} (h : state.after cs = .inTag) :
    ¬ Closes cs := fun hcloses => by
  obtain ⟨w, rfl⟩ := List.getLast?_eq_some_iff.mp hcloses.getLast?
  rw [State.after_append] at h
  cases hs : state.after w <;> rw [hs] at h <;> cases h

/-- The gaps in tags of the condensed text are the places in tags of the text. -/
theorem gap_condensed_iff (state : State) (cs : List Char) :
    (∃ as bs, condensed state cs = as ++ bs ∧ state.after as = .inTag ∧ Gap as bs) ↔
      OpensInTag state cs := by
  constructor
  · rintro ⟨as, bs, he, has, hgap⟩
    rcases hgap with ⟨hsolid, hopens⟩ | ⟨hcloses, -⟩
    · obtain ⟨us, vs, rfl, hus, rfl, rfl⟩ := exists_of_condensed_eq_append he has
      rw [EndsSolid, getLast?_condensed hus] at hsolid
      exact ⟨us, vs, rfl, hus, hsolid, opens_condensed.mp hopens⟩
    · exact absurd hcloses (not_closes_of_inTag has)
  · rintro ⟨us, vs, rfl, hus, hsolid, hopens⟩
    refine ⟨condensed state us, condensed .inTag vs, condensed_append hus vs, ?_, Or.inl ⟨?_, ?_⟩⟩
    · rw [after_condensed, hus]
    · rw [EndsSolid, getLast?_condensed hus]; exact hsolid
    · exact opens_condensed.mpr hopens

theorem tagChars_minified_iff (state : State) (cs : List Char) :
    tagChars state (minified state cs) = tagChars state cs ↔ ¬ OpensInTag state cs := by
  rw [← tagChars_condensed state cs, minified, tagChars_fill_iff notBeforeSpace_isGap,
    ← gap_condensed_iff]
  exact forall_isGap_eq_false_iff (fun as => state.after as = .inTag) (condensed state cs)

namespace Document

/-- **What a fragment gives ends in the fragment's state, and has its tag spans iff nothing in its
tags looks like an opening inline tag** behind something solid. -/
theorem tagSpans_fragment_iff (state : State) (stats : Stats) (text : String) :
    let output := (({ state, stats } : Document).fragment text).text
    (classify output state).2 = (classify text state).2 ∧
      (tagSpans (classify output state).1 = tagSpans (classify text state).1 ↔
        ¬ OpensInTag state text.toList) := by
  intro output
  have hout : output.toList = minified state text.toList :=
    toList_text_fragment_of_no_hint rfl rfl text
  constructor
  · rw [classify_eq, classify_eq, hout, minified, after_fill, after_condensed]
  · rw [tagSpans_classify_eq_iff, hout, tagChars_minified_iff]

/-- A tag that does not come out as it was: a `<` in an attribute's value. -/
theorem tagSpans_fragment_ne :
    (({} : Document).fragment "<p title='x<b y'>").text = "<p title='x <b y'>" ∧
      tagSpans (classify (({} : Document).fragment "<p title='x<b y'>").text .inText).1 ≠
        tagSpans (classify "<p title='x<b y'>" .inText).1 := by
  decide +kernel

end Document

end MarkupTrim
