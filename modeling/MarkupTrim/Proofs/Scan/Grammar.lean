import MarkupTrim.Proofs.Scan.Parts

/-! # The grammar of spans

What a scan makes of a text, said of the spans alone (`Grammar`). A text holds no `<`, and no two texts
meet. A tag goes on to its `>` and no further, and only the last span may be a tag without one. A tag
starts with `<`, unless the scan was within it from the start. A text has exactly one list of spans
like that, with one state behind it: what the scan finds (`classify_eq_iff`).

Spans are taken one at a time: `spells_text_iff` and `spells_tag_iff` say what the grammar asks of a
span and of those behind it. The scan keeps to both (`spells_stretches`), and they leave no choice
(`Spells.map_stretches`). -/

namespace MarkupTrim.Scan

/-- The span starts with `<`. -/
def Span.StartsTag (span : Span) : Prop := span.text.toList.head? = some '<'

/-- The span ends in `>`. -/
def Span.EndsTag (span : Span) : Prop := span.text.toList.getLast? = some '>'

/-- **Spans as a scan finds them** that comes to them in `state`. -/
@[mk_iff] structure Spells (state : State) (spans : List Span) : Prop where
  nonempty : ∀ span ∈ spans, span.text ≠ ""
  text : ∀ span ∈ spans, span.kind = .text → '<' ∉ span.text.toList
  apart : spans.IsChain fun left right => ¬ (left.kind = .text ∧ right.kind = .text)
  /-- A `>` stands nowhere in a tag but at its end. -/
  tag : ∀ span ∈ spans, span.kind = .tag → '>' ∉ span.text.toList.dropLast
  closed : ∀ span ∈ spans.dropLast, span.kind = .tag → span.EndsTag
  opened : ∀ span ∈ spans.tail, span.kind = .tag → span.StartsTag
  /-- The first tag may have been open before. -/
  firstTag : ∀ span ∈ spans.head?, span.kind = .tag → state = .inTag ∨ span.StartsTag
  firstText : ∀ span ∈ spans.head?, span.kind = .text → state = .inText

/-- **The grammar of a scan**: which spans it finds in a text, and in which state it ends. -/
structure Grammar (state : State) (text : String) (spans : List Span) (last : State) : Prop where
  joined : String.join (spans.map (·.text)) = text
  spells : Spells state spans
  /-- A tag is open at the end if the last span is part of one, or if one was and nothing came. -/
  last : last = .inTag ↔
    (∃ span ∈ spans.getLast?, span.kind = .tag ∧ ¬ span.EndsTag) ∨ (text = "" ∧ state = .inTag)

/-! ### One span and those behind it -/

theorem spells_nil (state : State) : Spells state [] := by simp [spells_iff]

/-- The first of the spans, if there is one, is a tag from its `<` on. -/
def StartsAtTag (spans : List Span) : Prop :=
  ∀ span ∈ spans.head?, span.kind = .tag ∧ span.StartsTag

theorem spells_text_iff {state : State} {text : String} {rest : List Span} :
    Spells state (⟨.text, text⟩ :: rest) ↔
      state = .inText ∧ text ≠ "" ∧ '<' ∉ text.toList ∧ StartsAtTag rest ∧ Spells .inTag rest := by
  rcases rest with _ | ⟨⟨_ | _, next⟩, rest⟩
  · simp [spells_iff, StartsAtTag]
    tauto
  · -- Two texts never meet.
    simp [spells_iff, StartsAtTag]
  · simp [spells_iff, StartsAtTag]
    tauto

theorem spells_tag_iff {state : State} {text : String} {rest : List Span} :
    Spells state (⟨.tag, text⟩ :: rest) ↔
      text ≠ "" ∧ '>' ∉ text.toList.dropLast ∧ (state = .inTag ∨ text.toList.head? = some '<') ∧
        (rest = [] ∨ text.toList.getLast? = some '>' ∧ Spells .inText rest) := by
  rcases rest with _ | ⟨⟨_ | _, next⟩, rest⟩
  · simp [spells_iff, Span.StartsTag]
  · simp [spells_iff, Span.StartsTag, Span.EndsTag]
    tauto
  · simp [spells_iff, Span.StartsTag, Span.EndsTag]
    tauto

/-! ### The scan keeps to the grammar -/

/-- In front of a `<` it makes no difference to the spans whether a tag is open. -/
theorem stretches_inText_lt (b : List Char) :
    stretches .inText ('<' :: b) = stretches .inTag ('<' :: b) := rfl

theorem startsAtTag_nil : StartsAtTag [] := fun span hspan => by cases hspan

theorem startsAtTag_stretches_lt (b : List Char) :
    StartsAtTag ((stretches .inTag ('<' :: b)).map toSpan) := by
  obtain ⟨tag, rest, h, -⟩ := stretches_lt b
  rw [h]
  rintro span hspan
  obtain rfl := Option.mem_some_iff.mp hspan
  exact ⟨rfl, by simp [toSpan, Span.StartsTag]⟩

theorem Spells.of_lt {b : List Char}
    (h : Spells .inTag ((stretches .inTag ('<' :: b)).map toSpan)) :
    Spells .inText ((stretches .inText ('<' :: b)).map toSpan) := by
  obtain ⟨tag, rest, hspans, -⟩ := stretches_lt b
  rw [hspans, List.map_cons, toSpan, spells_tag_iff] at h
  obtain ⟨hne, hgt, -, hrest⟩ := h
  rw [stretches_inText_lt, hspans, List.map_cons, toSpan, spells_tag_iff]
  exact ⟨hne, hgt, Or.inr (by simp), hrest⟩

theorem spells_stretches (state : State) (cs : List Char) :
    Spells state ((stretches state cs).map toSpan) := by
  induction state, cs using span_induction with
  | text a ha =>
    by_cases hne : a = []
    · subst hne; exact spells_nil _
    rw [stretches_text ha hne, List.map_cons, toSpan, spells_text_iff]
    exact ⟨rfl, by simpa using hne, by simpa using ha, startsAtTag_nil, spells_nil _⟩
  | textTag a b ha ih =>
    by_cases hne : a = []
    · subst hne; exact ih.of_lt
    rw [stretches_text_append ha hne, List.map_cons, toSpan, spells_text_iff]
    exact ⟨rfl, by simpa using hne, by simpa using ha, startsAtTag_stretches_lt b, ih⟩
  | tag a ha =>
    by_cases hne : a = []
    · subst hne; exact spells_nil _
    rw [stretches_tag ha hne, List.map_cons, toSpan, spells_tag_iff, String.toList_ofList]
    exact ⟨by simpa using hne, fun h => ha (List.dropLast_subset _ h), Or.inl rfl, Or.inl rfl⟩
  | tagText a b ha ih =>
    rw [stretches_tag_append ha, List.map_cons, toSpan, spells_tag_iff, String.toList_ofList]
    exact ⟨by simp, by simpa using ha, Or.inl rfl, Or.inr ⟨by simp, ih⟩⟩

/-- The state behind a scan can be read off its last span. -/
theorem after_eq_inTag_iff (state : State) (cs : List Char) :
    state.after cs = .inTag ↔
      (∃ span ∈ ((stretches state cs).map toSpan).getLast?, span.kind = .tag ∧ ¬ span.EndsTag) ∨
        (cs = [] ∧ state = .inTag) := by
  induction state, cs using span_induction with
  | text a ha =>
    by_cases hne : a = []
    · subst hne; simp [stretches]
    · simp [after_text ha, stretches_text ha hne, toSpan]
  | textTag a b ha ih =>
    rw [State.after_append, after_text ha, after_lt, ih]
    by_cases hne : a = []
    · subst hne
      simp [stretches_inText_lt]
    · obtain ⟨tag, rest, h, -⟩ := stretches_lt b
      simp [stretches_text_append ha hne, h]
  | tag a ha =>
    by_cases hne : a = []
    · subst hne; simp
    · have hlast : a.getLast? ≠ some '>' := fun h => ha (List.mem_of_getLast? h)
      simp [after_tag ha, stretches_tag ha hne, hlast, toSpan, Span.EndsTag]
  | tagText a b ha ih =>
    have hafter : State.inTag.after (a ++ '>' :: b) = State.inText.after b := by
      rw [State.after_append, after_tag ha]; rfl
    rw [hafter, ih, stretches_tag_append ha, List.map_cons]
    by_cases hne : b = []
    · subst hne; simp [stretches, toSpan, Span.EndsTag]
    · obtain ⟨span, rest, hspans⟩ := List.exists_cons_of_ne_nil (map_stretches_ne_nil .inText hne)
      simp [hspans]

/-! ### The grammar leaves no choice -/

/-- A text goes on to the tag behind it, or to the end. -/
theorem stretches_text_cons {a b : List Char} (ha : '<' ∉ a) (hne : a ≠ [])
    (hb : b = [] ∨ b.head? = some '<') :
    stretches .inText (a ++ b) = (.text, a) :: stretches .inTag b := by
  rcases hb with rfl | hb
  · rw [List.append_nil, stretches_text ha hne]; rfl
  · obtain ⟨c, rfl⟩ := List.head?_eq_some_iff.mp hb
    exact stretches_text_append ha hne

/-- A tag goes on to its `>`, or to the end. -/
theorem stretches_tag_cons {a b : List Char} (ha : '>' ∉ a.dropLast) (hne : a ≠ [])
    (hb : b = [] ∨ a.getLast? = some '>') :
    stretches .inTag (a ++ b) = (.tag, a) :: stretches .inText b := by
  by_cases hlast : a.getLast? = some '>'
  · obtain ⟨init, rfl⟩ := List.getLast?_eq_some_iff.mp hlast
    rw [List.dropLast_concat] at ha
    rw [List.append_assoc, List.singleton_append, stretches_tag_append ha]
  · obtain rfl := hb.resolve_right hlast
    have hgt : '>' ∉ a := by
      obtain ⟨init, last, rfl⟩ := (List.eq_nil_or_concat a).resolve_left hne
      rw [List.concat_eq_append, List.dropLast_concat] at ha
      rw [List.concat_eq_append, List.getLast?_concat] at hlast
      have hne : '>' ≠ last := fun he => hlast (by rw [he])
      simp [ha, hne]
    rw [List.append_nil, stretches_tag hgt hne]; rfl

/-- A scan that starts at a `<` finds what a scan in a tag finds. -/
theorem stretches_of_starts {state : State} {a : List Char} (hne : a ≠ [])
    (h : state = .inTag ∨ a.head? = some '<') (b : List Char) :
    stretches state (a ++ b) = stretches .inTag (a ++ b) := by
  cases state with
  | inText =>
    obtain ⟨c, rfl⟩ := List.head?_eq_some_iff.mp (h.resolve_left (by simp))
    exact stretches_inText_lt _
  | inTag => rfl

/-- What is joined behind a text starts with `<`. -/
theorem StartsAtTag.head? {spans : List Span} (h : StartsAtTag spans) :
    spans.flatMap (·.text.toList) = [] ∨ (spans.flatMap (·.text.toList)).head? = some '<' := by
  rcases spans with _ | ⟨span, rest⟩
  · exact Or.inl rfl
  · obtain ⟨c, hc⟩ := List.head?_eq_some_iff.mp (h span rfl).2
    exact Or.inr (by rw [List.flatMap_cons, hc]; rfl)

/-- **Spans that keep to the grammar are those of the text they make up.** -/
theorem Spells.map_stretches {state : State} {spans : List Span} (h : Spells state spans) :
    (stretches state (spans.flatMap (·.text.toList))).map toSpan = spans := by
  induction spans generalizing state with
  | nil => rfl
  | cons span rest ih =>
    obtain ⟨kind, text⟩ := span
    have hspan : toSpan (kind, text.toList) = ⟨kind, text⟩ := by rw [toSpan, String.ofList_toList]
    rw [List.flatMap_cons]
    cases kind with
    | text =>
      obtain ⟨rfl, hne, hlt, hstart, hrest⟩ := spells_text_iff.mp h
      rw [stretches_text_cons hlt (by simpa using hne) hstart.head?, List.map_cons, ih hrest,
        hspan]
    | tag =>
      obtain ⟨hne, hgt, hopen, hrest⟩ := spells_tag_iff.mp h
      have hne : text.toList ≠ [] := by simpa using hne
      have hend : rest.flatMap (·.text.toList) = [] ∨ text.toList.getLast? = some '>' := by
        refine hrest.imp (fun hnil => ?_) And.left
        rw [hnil]; rfl
      have hspans : Spells .inText rest := by
        rcases hrest with rfl | ⟨-, hrest⟩
        · exact spells_nil _
        · exact hrest
      rw [stretches_of_starts hne hopen, stretches_tag_cons hgt hne hend, List.map_cons, ih hspans,
        hspan]

theorem State.eq_of_inTag_iff {a b : State} (h : a = .inTag ↔ b = .inTag) : a = b := by
  cases a <;> cases b <;> simp_all

theorem toList_join_text (spans : List Span) :
    (String.join (spans.map (·.text))).toList = spans.flatMap (·.text.toList) := by
  rw [String.toList_join, List.flatMap_map]

/-- **A scan finds what the grammar allows, and the grammar allows nothing else**: a text has one list of
spans, and one state behind it. -/
theorem classify_eq_iff (text : String) (state : State) (spans : List Span) (last : State) :
    classify text state = (spans, last) ↔ Grammar state text spans last := by
  have hstate {spans : List Span} (h : (stretches state text.toList).map toSpan = spans) :
      state.after text.toList = .inTag ↔
        (∃ span ∈ spans.getLast?, span.kind = .tag ∧ ¬ span.EndsTag) ∨
          (text = "" ∧ state = .inTag) := by
    rw [after_eq_inTag_iff, h, String.toList_eq_nil_iff]
  rw [classify_eq, Prod.mk.injEq]
  constructor
  · rintro ⟨hspans, rfl⟩
    have hspans : (stretches state text.toList).map toSpan = spans := hspans
    refine ⟨?_, hspans ▸ spells_stretches state text.toList, hstate hspans⟩
    rw [← String.toList_inj, toList_join_text, ← hspans, List.flatMap_map]
    simpa [toSpan] using flatMap_stretches state text.toList
  · intro h
    have hjoin : spans.flatMap (·.text.toList) = text.toList := by
      rw [← toList_join_text, h.joined]
    have hspans : (stretches state text.toList).map toSpan = spans := by
      rw [← hjoin, h.spells.map_stretches]
    exact ⟨hspans, State.eq_of_inTag_iff ((hstate hspans).trans h.last.symm)⟩

/-- A tag that was open before, a text, and a tag that stays open. -/
example : classify "x='>'>y<b" .inTag =
    ([⟨.tag, "x='>"⟩, ⟨.text, "'>y"⟩, ⟨.tag, "<b"⟩], .inTag) := by
  decide +kernel

end MarkupTrim.Scan
