import MarkupTrim.Proofs.Scan.Spans

/-! # The two sides of a text span

`span_induction` follows a scan from span to span. A text span stands between tags
(`sides_of_stretches`): the tag in front of it ends with its `>`, the tag behind it starts with a
`<` and goes on to its `>` or to the end. So a scan that meets a text span is in front of everything,
or right behind a tag (`Sides.startsText`). -/

namespace MarkupTrim.Scan

/-- **Induction along the spans of a scan.** A text goes on to the end or to the tag behind it, a tag
to the end or to its `>`. -/
theorem span_induction {motive : State → List Char → Prop}
    (text : ∀ a, '<' ∉ a → motive .inText a)
    (textTag : ∀ a b, '<' ∉ a → motive .inTag ('<' :: b) → motive .inText (a ++ '<' :: b))
    (tag : ∀ a, '>' ∉ a → motive .inTag a)
    (tagText : ∀ a b, '>' ∉ a → motive .inText b → motive .inTag (a ++ '>' :: b)) :
    ∀ state cs, motive state cs := by
  intro state cs
  induction hn : cs.length using Nat.strongRecOn generalizing state cs with
  | ind n ih =>
    subst hn
    have htag : ∀ ds : List Char, ds.length ≤ cs.length → motive .inTag ds := by
      intro ds hds
      by_cases hmem : '>' ∈ ds
      · obtain ⟨a, b, rfl, ha⟩ := List.eq_append_cons_of_mem hmem
        rw [List.length_append, List.length_cons] at hds
        exact tagText a b ha (ih b.length (by omega) _ _ rfl)
      · exact tag ds hmem
    cases state with
    | inText =>
      by_cases hmem : '<' ∈ cs
      · obtain ⟨a, b, rfl, ha⟩ := List.eq_append_cons_of_mem hmem
        exact textTag a b ha (htag _ (by simp))
      · exact text cs hmem
    | inTag => exact htag cs (Nat.le_refl _)

/-- Behind these characters a text may start: they are none, or they end with the `>` of a tag. -/
def StartsText (state : State) (cs : List Char) : Prop :=
  (cs = [] ∧ state = .inText) ∨ ∃ init, cs = init ++ ['>'] ∧ state.after init = .inTag

theorem StartsText.after_eq {state : State} {cs : List Char} (h : StartsText state cs) :
    state.after cs = .inText := by
  rcases h with ⟨rfl, rfl⟩ | ⟨init, rfl, hinit⟩
  · rfl
  · rw [State.after_append, hinit]; rfl

/-- Behind a `<` and its `>` a text may start, wherever the scan started. -/
theorem startsText_append_tag {tail : List Char} (hgt : '>' ∉ tail) (state : State)
    (before : List Char) : StartsText state (before ++ '<' :: (tail ++ ['>'])) :=
  Or.inr ⟨before ++ '<' :: tail, by simp, after_append_lt state before hgt⟩

/-- What stands on the two sides of a text span. -/
structure Sides (state : State) (left : List (Kind × List Char)) (text : List Char)
    (right : List (Kind × List Char)) : Prop where
  lt : '<' ∉ text
  left : (left = [] ∧ state = .inText) ∨ ∃ init tag, left = init ++ [(.tag, tag ++ ['>'])] ∧
    '>' ∉ tag ∧ ((init = [] ∧ state = .inTag) ∨ tag.head? = some '<')
  right : right = [] ∨ ∃ tag rest, right = (.tag, '<' :: tag) :: rest ∧ ('>' ∈ tag ∨ rest = [])

theorem stretches_lt (b : List Char) :
    ∃ tag rest, stretches .inTag ('<' :: b) = (.tag, '<' :: tag) :: rest ∧
      ('>' ∈ tag ∨ rest = []) := by
  by_cases hmem : '>' ∈ b
  · obtain ⟨a, c, rfl, ha⟩ := List.eq_append_cons_of_mem hmem
    have ha : '>' ∉ '<' :: a := by simp [ha]
    rw [← List.cons_append, stretches_tag_append ha]
    exact ⟨a ++ ['>'], _, rfl, Or.inl (by simp)⟩
  · have hb : '>' ∉ '<' :: b := by simp [hmem]
    rw [stretches_tag hb (by simp)]
    exact ⟨b, [], rfl, Or.inr rfl⟩

/-- A tag in front of the spans of a scan that goes on behind it. -/
theorem Sides.cons_tag {left right : List (Kind × List Char)} {text tag : List Char}
    (h : Sides .inText left text right) (htag : '>' ∉ tag) :
    Sides .inTag ((.tag, tag ++ ['>']) :: left) text right := by
  refine ⟨h.lt, Or.inr ?_, h.right⟩
  rcases h.left with ⟨rfl, -⟩ | ⟨init, last, rfl, hlast, ⟨-, hstate⟩ | hhead⟩
  · exact ⟨[], tag, rfl, htag, Or.inl ⟨rfl, rfl⟩⟩
  · cases hstate
  · exact ⟨_ :: init, last, rfl, hlast, Or.inr hhead⟩

/-- In a scan that enters a tag, the tag in front of a text span starts with a `<`. -/
theorem Sides.exists_of_lt {left right : List (Kind × List Char)} {b text : List Char}
    (h : Sides .inTag left text right)
    (he : stretches .inTag ('<' :: b) = left ++ (.text, text) :: right) :
    ∃ init tag, left = init ++ [(.tag, tag ++ ['>'])] ∧ '>' ∉ tag ∧ tag.head? = some '<' := by
  rcases h.left with ⟨-, hstate⟩ | ⟨init, last, rfl, hlast, ⟨rfl, -⟩ | hhead⟩
  · cases hstate
  · -- The tag is the first one, so it starts with the `<` that was entered.
    obtain ⟨tag, rest, hfirst, -⟩ := stretches_lt b
    rw [hfirst] at he
    have hspan := congrArg Prod.snd (List.cons.inj he).1
    rcases last with _ | ⟨c, last⟩
    · exact absurd (List.cons.inj hspan).1 (by decide)
    · exact ⟨[], c :: last, rfl, hlast, by rw [← (List.cons.inj hspan).1]; rfl⟩
  · exact ⟨init, last, rfl, hlast, hhead⟩

theorem Sides.startsText {state : State} {left right : List (Kind × List Char)} {text : List Char}
    (h : Sides state left text right) : StartsText state (left.flatMap (·.2)) := by
  rcases h.left with ⟨rfl, rfl⟩ | ⟨init, tag, rfl, htag, hinit⟩
  · exact Or.inl ⟨rfl, rfl⟩
  · refine Or.inr ⟨init.flatMap (·.2) ++ tag, by simp, ?_⟩
    rcases hinit with ⟨rfl, rfl⟩ | hhead
    · exact after_tag htag
    · obtain ⟨rest, rfl⟩ := List.head?_eq_some_iff.mp hhead
      exact after_append_lt state _ fun hmem => htag (List.mem_cons_of_mem _ hmem)

/-- **A text span stands between tags.** -/
theorem sides_of_stretches {state : State} {cs text : List Char}
    {left right : List (Kind × List Char)}
    (h : stretches state cs = left ++ (.text, text) :: right) : Sides state left text right := by
  induction state, cs using span_induction generalizing left with
  | text a ha =>
    by_cases hne : a = []
    · subst hne
      simp [stretches] at h
    · rw [stretches_text ha hne] at h
      rcases left with _ | ⟨s, left⟩
      · obtain ⟨hs, hright⟩ := List.cons.inj h
        obtain rfl := congrArg Prod.snd hs
        exact ⟨ha, Or.inl ⟨rfl, rfl⟩, Or.inl hright.symm⟩
      · have := (List.cons.inj h).2
        simp at this
  | textTag a b ha ih =>
    by_cases hne : a = []
    · subst hne
      obtain ⟨init, last, hleft, hlast, hhead⟩ := (ih h).exists_of_lt h
      exact ⟨(ih h).lt, Or.inr ⟨init, last, hleft, hlast, Or.inr hhead⟩, (ih h).right⟩
    · rw [stretches_text_append ha hne] at h
      rcases left with _ | ⟨s, left⟩
      · obtain ⟨hs, hright⟩ := List.cons.inj h
        obtain rfl := congrArg Prod.snd hs
        obtain ⟨tag, rest, hfirst, hend⟩ := stretches_lt b
        exact ⟨ha, Or.inl ⟨rfl, rfl⟩, Or.inr ⟨tag, rest, hright ▸ hfirst, hend⟩⟩
      · obtain ⟨rfl, htail⟩ := List.cons.inj h
        obtain ⟨init, last, rfl, hlast, hhead⟩ := (ih htail).exists_of_lt htail
        exact ⟨(ih htail).lt, Or.inr ⟨_ :: init, last, rfl, hlast, Or.inr hhead⟩, (ih htail).right⟩
  | tag a ha =>
    by_cases hne : a = []
    · subst hne
      simp [stretches] at h
    · rw [stretches_tag ha hne] at h
      rcases left with _ | ⟨s, left⟩
      · cases congrArg Prod.fst (List.cons.inj h).1
      · have := (List.cons.inj h).2
        simp at this
  | tagText a b ha ih =>
    rw [stretches_tag_append ha] at h
    rcases left with _ | ⟨s, left⟩
    · cases congrArg Prod.fst (List.cons.inj h).1
    · obtain ⟨rfl, htail⟩ := List.cons.inj h
      exact (ih htail).cons_tag ha

end MarkupTrim.Scan
