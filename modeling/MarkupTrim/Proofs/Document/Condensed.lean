import MarkupTrim.Document.Basic
import MarkupTrim.Proofs.Collapse
import MarkupTrim.Proofs.Scan.Spans

/-! # Condensed text

What a scan leaves of a text by its characters: `condensed state cs` is the tag spans as they are and
the text spans collapsed, joined. In a tag that is one character after another, so a cut in a tag
does not show (`condensed_append`), and every cut of the condensed text in a tag comes from a cut of
the text in a tag (`exists_of_condensed_eq_append`). Condensing keeps the characters in tags
(`tagChars_condensed`) and the state (`after_condensed`). -/

namespace MarkupTrim

open Scan

/-! ### Condensing -/

/-- The characters of a stretch that count: all of a tag, a text collapsed. -/
def condensedStretch (s : Kind × List Char) : List Char :=
  match s.1 with
  | .tag => s.2
  | .text => trimSpaces (dropLayout s.2)

/-- What a scan leaves of a run of characters: tags as they are, texts collapsed. -/
def condensed (state : State) (cs : List Char) : List Char :=
  (stretches state cs).flatMap condensedStretch

/-- **Condensing a text is condensing its characters**, and the state behind it is the machine's. -/
theorem toList_condense (fragment : String) (state : State) :
    (condense fragment state).1.toList = condensed state fragment.toList := by
  simp only [condense, classify_eq, List.map_map, condensed, List.flatMap]
  rw [String.toList_join, List.flatMap_map]
  congr 1
  funext s
  rcases s with ⟨_ | _, t⟩
  · simp [Function.comp, Span.condensed, condensedStretch, toList_collapse]
  · simp [Function.comp, Span.condensed, condensedStretch]

theorem condense_snd (fragment : String) (state : State) :
    (condense fragment state).2 = state.after fragment.toList := by
  simp [condense, classify_eq]

theorem condensed_text {a : List Char} (ha : '<' ∉ a) :
    condensed .inText a = trimSpaces (dropLayout a) := by
  by_cases hne : a = []
  · subst hne; rfl
  · simp [condensed, stretches_text ha hne, condensedStretch]

theorem condensed_inTag (c : Char) (cs : List Char) :
    condensed .inTag (c :: cs) = c :: condensed (State.inTag.next c) cs := by
  unfold condensed
  by_cases hc : c = '>'
  · have h := stretches_tag_append (a := []) (b := cs) (by simp)
    rw [List.nil_append] at h
    rw [hc, h]; rfl
  · rw [State.next_inTag hc, stretches, State.next_inTag hc]
    rcases cs with _ | ⟨d, cs⟩
    · rfl
    · obtain ⟨t, rest, h⟩ := stretches_inTag_cons d cs
      rw [h]; rfl

theorem condensed_text_lt {a : List Char} (ha : '<' ∉ a) (b : List Char) :
    condensed .inText (a ++ '<' :: b) =
      trimSpaces (dropLayout a) ++ '<' :: condensed .inTag b := by
  have hlt : condensed .inTag ('<' :: b) = '<' :: condensed .inTag b := condensed_inTag ..
  rw [← hlt]
  by_cases hne : a = []
  · subst hne; rfl
  · unfold condensed
    rw [stretches_text_append ha hne]; rfl

/-! ### What condensing keeps -/

/-- **A cut in a tag does not show in the condensed text.** -/
theorem condensed_append {state : State} {as : List Char} (h : state.after as = .inTag)
    (bs : List Char) : condensed state (as ++ bs) = condensed state as ++ condensed .inTag bs := by
  induction state, as using scan_induction with
  | text a ha => rw [after_text ha] at h; cases h
  | enter a b ha ih =>
    rw [after_text_lt ha] at h
    rw [List.append_assoc, List.cons_append, condensed_text_lt ha, ih h, condensed_text_lt ha]
    simp
  | rest => rfl
  | tag c cs ih => rw [List.cons_append, condensed_inTag, ih h, condensed_inTag]; rfl

/-- A cut in front of a `<` does not show either: a text ends there anyhow. -/
theorem condensed_append_lt (state : State) (as bs : List Char) :
    condensed state (as ++ '<' :: bs) = condensed state as ++ '<' :: condensed .inTag bs := by
  induction state, as using scan_induction with
  | text a ha => rw [condensed_text_lt ha, condensed_text ha]
  | enter a b ha ih =>
    rw [List.append_assoc, List.cons_append, condensed_text_lt ha, ih, condensed_text_lt ha]
    simp
  | rest => exact condensed_inTag '<' bs
  | tag c cs ih => rw [List.cons_append, condensed_inTag, ih, condensed_inTag]; rfl

theorem condensed_tag {a : List Char} (ha : '>' ∉ a) : condensed .inTag a = a := by
  by_cases hne : a = []
  · subst hne; rfl
  · simp [condensed, stretches_tag ha hne, condensedStretch]

/-- A tag at the end stays as it is, wherever the scan started. -/
theorem condensed_append_tag {tail : List Char} (hgt : '>' ∉ tail) (state : State)
    (before : List Char) :
    condensed state (before ++ '<' :: (tail ++ ['>'])) =
      condensed state before ++ '<' :: (tail ++ ['>']) := by
  rw [condensed_append_lt, condensed_append (after_tag hgt), condensed_tag hgt]
  rfl

/-- **Condensing only takes away.** -/
theorem condensed_sublist (state : State) (cs : List Char) : (condensed state cs).Sublist cs := by
  induction state, cs using scan_induction with
  | text a ha => rw [condensed_text ha]; exact collapsed_sublist a
  | enter a b ha ih =>
    rw [condensed_text_lt ha]
    exact (collapsed_sublist a).append (ih.cons_cons '<')
  | rest => exact List.Sublist.refl _
  | tag c cs ih => rw [condensed_inTag]; exact ih.cons_cons c

/-- **Condensing twice is condensing once.** -/
theorem condensed_condensed (state : State) (cs : List Char) :
    condensed state (condensed state cs) = condensed state cs := by
  induction state, cs using scan_induction with
  | text a ha => rw [condensed_text ha, condensed_text (notMem_collapsed ha), collapse_collapsed]
  | enter a b ha ih =>
    rw [condensed_text_lt ha, condensed_text_lt (notMem_collapsed ha), collapse_collapsed, ih]
  | rest => rfl
  | tag c cs ih => rw [condensed_inTag, condensed_inTag, ih]

theorem tagChars_condensed (state : State) (cs : List Char) :
    tagChars state (condensed state cs) = tagChars state cs := by
  induction state, cs using scan_induction with
  | text a ha => rw [condensed_text ha, tagChars_text ha, tagChars_text (notMem_collapsed ha)]
  | enter a b ha ih =>
    rw [condensed_text_lt ha, tagChars_text_lt ha, tagChars_text_lt (notMem_collapsed ha), ih]
  | rest => rfl
  | tag c cs ih => rw [condensed_inTag, tagChars_inTag, tagChars_inTag, ih]

theorem after_condensed (state : State) (cs : List Char) :
    state.after (condensed state cs) = state.after cs := by
  induction state, cs using scan_induction with
  | text a ha => rw [condensed_text ha, after_text ha, after_text (notMem_collapsed ha)]
  | enter a b ha ih =>
    rw [condensed_text_lt ha, after_text_lt ha, after_text_lt (notMem_collapsed ha), ih]
  | rest => rfl
  | tag c cs ih => rw [condensed_inTag, State.after_cons, State.after_cons, ih]

/-- A cut of the condensed text in a tag comes from a cut of the text in a tag. -/
theorem exists_of_condensed_eq_append {state : State} {cs us vs : List Char}
    (h : condensed state cs = us ++ vs) (hu : state.after us = .inTag) :
    ∃ as bs, cs = as ++ bs ∧ state.after as = .inTag ∧
      us = condensed state as ∧ vs = condensed .inTag bs := by
  induction state, cs using scan_induction generalizing us with
  | text a ha =>
    rw [condensed_text ha] at h
    have hmem := List.mem_append_left vs (lt_mem_of_after hu)
    rw [← h] at hmem
    exact absurd hmem (notMem_collapsed ha)
  | enter a b ha ih =>
    rw [condensed_text_lt ha] at h
    rcases List.append_eq_append_iff.mp h with ⟨x, rfl, hx⟩ | ⟨x, hx, -⟩
    · -- The cut stands behind the `<`: before it there is no tag to be in.
      rcases x with _ | ⟨d, x⟩
      · rw [List.append_nil] at hu
        exact absurd (lt_mem_of_after hu) (notMem_collapsed ha)
      · obtain ⟨rfl, hxb⟩ := List.cons.inj hx
        rw [after_text_lt (notMem_collapsed ha)] at hu
        obtain ⟨as, bs, rfl, has, rfl, rfl⟩ := ih hxb hu
        refine ⟨a ++ '<' :: as, bs, by simp, ?_, ?_, rfl⟩
        · rw [after_text_lt ha, has]
        · rw [condensed_text_lt ha]
    · have hmem := List.mem_append_left x (lt_mem_of_after hu)
      rw [← hx] at hmem
      exact absurd hmem (notMem_collapsed ha)
  | rest =>
    obtain ⟨rfl, rfl⟩ := List.append_eq_nil_iff.mp h.symm
    exact ⟨[], [], rfl, rfl, rfl, rfl⟩
  | tag c cs ih =>
    rw [condensed_inTag] at h
    rcases us with _ | ⟨d, us⟩
    · exact ⟨[], c :: cs, rfl, rfl, rfl, by rw [condensed_inTag]; exact h.symm⟩
    · obtain ⟨rfl, hus⟩ := List.cons.inj h
      obtain ⟨as, bs, rfl, has, rfl, rfl⟩ := ih hus hu
      exact ⟨c :: as, bs, rfl, has, by rw [condensed_inTag], rfl⟩

/-! ### The two ends -/

/-- In a tag the condensed text ends as the text does, and so it does behind a character that is not
blank. -/
theorem getLast?_condensed_of {state : State} {cs : List Char}
    (h : state.after cs = .inTag ∨ (cs.getLast?.all fun c => !isBlank c) = true) :
    (condensed state cs).getLast? = cs.getLast? := by
  induction state, cs using scan_induction with
  | text a ha =>
    rw [after_text ha] at h
    have hall := h.resolve_left (by simp)
    rw [condensed_text ha]
    rcases hlast : a.getLast? with _ | c
    · obtain rfl := List.getLast?_eq_none_iff.mp hlast
      rfl
    · rw [hlast] at hall
      exact getLast?_collapsed (by simpa using hall) hlast
  | enter a b ha ih =>
    have htail : State.inTag.after b = .inTag ∨ (b.getLast?.all fun c => !isBlank c) = true := by
      rw [after_text_lt ha, List.getLast?_append, List.getLast?_cons] at h
      refine h.imp_right fun hall => ?_
      rcases hb : b.getLast? with _ | c
      · rfl
      · rw [hb] at hall; exact hall
    rw [condensed_text_lt ha, List.getLast?_append, List.getLast?_append, List.getLast?_cons,
      List.getLast?_cons, ih htail]
    rfl
  | rest => rfl
  | tag c cs ih =>
    have htail : (State.inTag.next c).after cs = .inTag ∨
        (cs.getLast?.all fun c => !isBlank c) = true := by
      rw [State.after_cons, List.getLast?_cons] at h
      refine h.imp_right fun hall => ?_
      rcases hcs : cs.getLast? with _ | d
      · rfl
      · rw [hcs] at hall; exact hall
    rw [condensed_inTag, List.getLast?_cons, List.getLast?_cons, ih htail]

theorem getLast?_condensed {state : State} {cs : List Char} (h : state.after cs = .inTag) :
    (condensed state cs).getLast? = cs.getLast? := getLast?_condensed_of (Or.inl h)

/-- A text that starts with a character that is not blank keeps it. -/
theorem head?_condensed {c : Char} (hc : isBlank c = false) (cs : List Char) :
    (condensed .inText (c :: cs)).head? = some c := by
  by_cases hmem : '<' ∈ c :: cs
  · obtain ⟨a, b, he, ha⟩ := List.eq_append_cons_of_mem hmem
    rw [he, condensed_text_lt ha]
    rcases a with _ | ⟨d, a⟩
    · obtain ⟨rfl, -⟩ := List.cons.inj he
      rfl
    · obtain ⟨rfl, -⟩ := List.cons.inj he
      rw [List.head?_append, head?_collapsed hc]
      rfl
  · rw [condensed_text hmem, head?_collapsed hc]

/-- Outside of tags the condensed text ends neither in a space nor in layout. -/
theorem getLast?_condensed_ne {state : State} {cs : List Char} (h : state.after cs = .inText)
    {c : Char} (hlast : (condensed state cs).getLast? = some c) : c ≠ ' ' ∧ isLayout c = false := by
  induction state, cs using scan_induction with
  | text a ha =>
    rw [condensed_text ha] at hlast
    exact getLast?_collapsed_ne hlast
  | enter a b ha ih =>
    rw [after_text_lt ha] at h
    rw [condensed_text_lt ha, List.getLast?_append, List.getLast?_cons] at hlast
    rcases hb : (condensed .inTag b).getLast? with _ | d
    · rw [hb] at hlast
      obtain rfl := Option.some.inj hlast
      decide
    · rw [hb] at hlast
      obtain rfl := Option.some.inj hlast
      exact ih h hb
  | rest => cases h
  | tag d cs ih =>
    rw [State.after_cons] at h
    rw [condensed_inTag, List.getLast?_cons] at hlast
    rcases hcs : (condensed (State.inTag.next d) cs).getLast? with _ | e
    · -- Nothing follows, so this is the `>` that ends the tag.
      rw [hcs] at hlast
      obtain rfl := Option.some.inj hlast
      by_cases hd : d = '>'
      · subst hd; decide
      · rw [State.next_inTag hd] at h hcs
        rcases cs with _ | ⟨e, cs⟩
        · cases h
        · rw [condensed_inTag] at hcs
          simp at hcs
    · rw [hcs] at hlast
      obtain rfl := Option.some.inj hlast
      exact ih h hcs

/-- Outside of tags the condensed text does not start with a space. -/
theorem head?_condensed_ne (cs : List Char) : (condensed .inText cs).head? ≠ some ' ' := by
  by_cases hmem : '<' ∈ cs
  · obtain ⟨a, b, rfl, ha⟩ := List.eq_append_cons_of_mem hmem
    rw [condensed_text_lt ha, List.head?_append]
    intro h
    rcases htrim : (trimSpaces (dropLayout a)).head? with _ | c
    · rw [htrim] at h
      exact absurd (Option.some.inj h) (by decide)
    · rw [htrim] at h
      obtain rfl := Option.some.inj h
      exact head?_trimSpaces _ htrim
  · rw [condensed_text hmem]
    exact head?_trimSpaces _

end MarkupTrim
