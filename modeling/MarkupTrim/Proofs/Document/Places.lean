import MarkupTrim.Proofs.Document.Cut
import MarkupTrim.Proofs.Document.Markup
import MarkupTrim.Proofs.Spacing.Places

/-! # Where a cut within a tag can show

Two fragments, the first of which ends within a tag, against the two in one, place by place. Both
ways give the condensed text of the two with one space at each of some places, and these are the same
places but for three (`NearCut`): the last `<` of the first fragment may start a tag of another name
once the second is known, the second may start with a tag, and a closing tag may end in it. None of
this happens when the first fragment does not end in what may be the start of an inline tag
(`EndsCut`) and the second does not start with `<`. -/

namespace MarkupTrim

open Scan Spacing

/-- The last `<` starts what may go on to an inline tag. -/
def EndsCut (cs : List Char) : Prop :=
  ∃ start inner, cs = start ++ '<' :: inner ∧ '<' ∉ inner ∧ ∃ name ∈ inlineNames,
    '<' :: inner <+: '<' :: name.toList ∨ '<' :: inner <+: '<' :: '/' :: name.toList

theorem endsCut_append_iff {start inner : List Char} (h : '<' ∉ inner) :
    EndsCut (start ++ '<' :: inner) ↔ ∃ name ∈ inlineNames,
      '<' :: inner <+: '<' :: name.toList ∨ '<' :: inner <+: '<' :: '/' :: name.toList := by
  constructor
  · rintro ⟨start', inner', he, h', hname⟩
    rwa [eq_of_append_lt he h h']
  · exact fun hname => ⟨start, inner, rfl, h, hname⟩

/-- The places of `front ++ back` that a cut of `f ++ g` can change, `front` and `back` being what is
left of `f` and `g`. -/
inductive NearCut (f g front back : List Char) : ℕ → Prop where
  /-- In front of the last `<` of `f`. -/
  | last {start before inner : List Char} : f = start ++ '<' :: inner → '<' ∉ inner →
      front = before ++ '<' :: inner → NearCut f g front back before.length
  /-- At the cut. -/
  | seam : NearCut f g front back front.length
  /-- Behind the first `>` of `g`. -/
  | first {inner rest ahead : List Char} : g = inner ++ '>' :: rest → '>' ∉ inner →
      back = inner ++ '>' :: ahead → NearCut f g front back (front.length + (inner.length + 1))

/-! ### Tags that are left -/

theorem eq_of_condensed_eq {cs inner : List Char} (hgt : '>' ∉ inner)
    (h : condensed .inTag cs = inner) : cs = inner := by
  rw [← List.append_nil inner] at h
  obtain ⟨rest, rfl, hrest⟩ := condensed_eq_append hgt h
  rcases rest with _ | ⟨c, rest⟩
  · exact List.append_nil inner
  · rw [condensed_inTag] at hrest
    cases hrest

/-- The start of a tag at the end of what is left stands at the end of the text. -/
theorem exists_of_condensed_eq_lt {state : State} {cs before inner : List Char} (hgt : '>' ∉ inner)
    (h : condensed state cs = before ++ '<' :: inner) : ∃ start, cs = start ++ '<' :: inner := by
  have hbefore : state.after (before ++ ['<']) = .inTag := after_append_lt state before (by simp)
  rw [← List.singleton_append, ← List.append_assoc] at h
  obtain ⟨as, bs, rfl, has, hus, hvs⟩ := exists_of_condensed_eq_append h hbefore
  have hlast : as.getLast? = some '<' := by
    rw [← getLast?_condensed has, ← hus, List.getLast?_concat]
  obtain ⟨start, rfl⟩ := List.getLast?_eq_some_iff.mp hlast
  obtain rfl := eq_of_condensed_eq hgt hvs.symm
  exact ⟨start, by simp⟩

theorem exists_of_condensed_eq_gt {cs inner ahead : List Char} (hgt : '>' ∉ inner)
    (h : condensed .inTag cs = inner ++ '>' :: ahead) : ∃ rest, cs = inner ++ '>' :: rest := by
  obtain ⟨bs, rfl, hbs⟩ := condensed_eq_append hgt h
  rcases bs with _ | ⟨c, rest⟩
  · cases hbs
  · rw [condensed_inTag] at hbs
    obtain ⟨rfl, -⟩ := List.cons.inj hbs
    exact ⟨rest, rfl⟩

theorem EndsCut.of_condensed {state : State} {cs before inner : List Char} {name : String}
    (hname : name ∈ inlineNames) (h : condensed state cs = before ++ '<' :: inner)
    (hpre : inner <+: name.toList ∨ inner <+: '/' :: name.toList) : EndsCut cs := by
  have hnot {c : Char} (hlower : c.isLower = false) (hslash : c ≠ '/') : c ∉ inner := by
    have hmem := notMem_slash_name hname hlower hslash
    rcases hpre with hpre | hpre
    · exact fun hc => hmem (List.mem_cons_of_mem _ (hpre.subset hc))
    · exact fun hc => hmem (hpre.subset hc)
  obtain ⟨start, rfl⟩ := exists_of_condensed_eq_lt (hnot (by decide) (by decide)) h
  refine (endsCut_append_iff (hnot (by decide) (by decide))).mpr ⟨name, hname, ?_⟩
  rw [List.cons_prefix_cons, List.cons_prefix_cons]
  exact hpre.imp (⟨rfl, ·⟩) (⟨rfl, ·⟩)

/-! ### The places that differ -/

/-- **A cut changes the places near it only.** -/
theorem nearCut_of_differ {state : State} {f g : List Char} {p : ℕ}
    (h : ¬ (p ∈ gapPlaces (condensed state f ++ condensed .inTag g) ↔
      p ∈ partPlaces (condensed state f) (condensed .inTag g))) :
    NearCut f g (condensed state f) (condensed .inTag g) p := by
  rcases lt_trichotomy p (condensed state f).length with hlt | rfl | hgt
  · obtain ⟨before, inner, he, rfl, name, hname, hpre⟩ := exists_of_differ_front hlt h
    have hnot {c : Char} (hc : c.isLower = false) : c ∉ inner := fun hmem =>
      notMem_name hname hc (hpre.subset hmem)
    obtain ⟨start, hf⟩ := exists_of_condensed_eq_lt (hnot (by decide)) he
    exact .last hf (hnot (by decide)) he
  · exact .seam
  · obtain ⟨q, rfl⟩ := Nat.exists_eq_add_of_lt hgt
    rw [Nat.add_assoc] at h ⊢
    obtain ⟨inner, ahead, he, hinner, hq⟩ := exists_of_differ_back (Nat.succ_pos q) h
    obtain rfl := Nat.succ.inj hq
    obtain ⟨rest, hg⟩ := exists_of_condensed_eq_gt hinner he
    exact .first hg hinner he

/-- **A cut does not show** that cuts no tag's name and has no tag right behind it. -/
theorem not_cutShows {state : State} {f g : List Char} (hf : state.after f = .inTag)
    (hg : g.head? ≠ some '<') (hcut : ¬ EndsCut f) :
    ¬ CutShows (condensed state f) (condensed .inTag g) := by
  rintro (⟨he, -, hne⟩ | hgap | ⟨-, hinner, hcloses, hnot, -⟩)
  · obtain ⟨name, hname, hpre⟩ := opens_cut hne
    exact hcut (.of_condensed hname he (Or.inl hpre))
  · rcases hgap with ⟨-, hopens⟩ | ⟨hcloses, -⟩
    · obtain ⟨c, rest, rfl, -⟩ := (opens_condensed.mp hopens).exists_eq
      exact hg rfl
    · exact not_closes_of_inTag (by rw [after_condensed, hf]) hcloses
  · obtain ⟨name, hname, before, u, w, he, -, hsplit⟩ :=
      closes_cut hinner fun hiff => hnot (hiff.mp hcloses)
    exact hcut (.of_condensed hname he (Or.inr ⟨w, hsplit.symm⟩))

namespace Document

/-- **Cutting a document within a tag, place by place.** Both in two calls and in one call the text
is that of the condensed fragments with one space at each of some places, which are the same ones
except near the cut. -/
theorem fragment_append_places (state : State) (stats : Stats) (f g : String)
    (h : (({ state, stats } : Document).fragment f).document.state = .inTag) :
    let document : Document := { state, stats }
    let first := document.fragment f
    let second := first.document.fragment g
    let whole := document.fragment (f ++ g)
    let front := (condense f state).1.toList
    let back := (condense g .inTag).1.toList
    (condense (f ++ g) state).1.toList = front ++ back ∧
      whole.text.toList = spaced (gapPlaces (front ++ back)) 0 (front ++ back) ∧
      (first.text ++ second.text).toList = spaced (partPlaces front back) 0 (front ++ back) ∧
      (∀ p, ¬ (p ∈ gapPlaces (front ++ back) ↔ p ∈ partPlaces front back) →
        NearCut f.toList g.toList front back p) ∧
      (g.toList.head? ≠ some '<' → ¬ EndsCut f.toList → first.text ++ second.text = whole.text) := by
  intro document first second whole front back
  have hmode : first.document.mode = .minify := mode_fragment document f
  have hhint : first.document.hintPending = false := hintPending_fragment rfl f
  have hafter : state.after f.toList = .inTag := (state_fragment rfl f).symm.trans h
  have hfront : front = condensed state f.toList := toList_condense f state
  have hback : back = condensed .inTag g.toList := toList_condense g .inTag
  have hjoined : (condense (f ++ g) state).1.toList = front ++ back := by
    rw [toList_condense, String.toList_append, condensed_append hafter, hfront, hback]
  have hwhole : whole.text.toList = fill isGap [] (front ++ back) := by
    rw [← hjoined, toList_condense]
    exact toList_text_fragment_of_no_hint rfl rfl (f ++ g)
  have hparts : (first.text ++ second.text).toList =
      fill isGap [] front ++ fill isGap [] back := by
    have hfirst : first.text.toList = minified state f.toList :=
      toList_text_fragment_of_no_hint rfl rfl f
    have hsecond : second.text.toList = minified first.document.state g.toList :=
      toList_text_fragment_of_no_hint hmode hhint g
    have hstate : first.document.state = .inTag := h
    rw [String.toList_append, hfirst, hsecond, hstate, hfront, hback, minified, minified]
  refine ⟨hjoined, ?_, ?_, fun p hp => ?_, fun hg hf => ?_⟩
  · rw [hwhole, fill_eq_spaced]
  · rw [hparts, fill_append_fill_eq_spaced]
  · rw [hfront, hback] at hp ⊢
    exact nearCut_of_differ hp
  · rw [← String.toList_inj, hparts, hwhole, fill_append_iff, hfront, hback]
    exact not_cutShows hafter hg hf

/-- A cut in an attribute's value cuts no name. -/
theorem fragment_append_places_value :
    (({} : Document).fragment "x<a href='y").document.state = .inTag ∧
      (({} : Document).fragment "x<a href='y").text ++
        ((({} : Document).fragment "x<a href='y").document.fragment "'>z").text =
        (({} : Document).fragment ("x<a href='y" ++ "'>z")).text := by
  have hcut : ¬ EndsCut ("x".toList ++ '<' :: "a href='y".toList) :=
    (endsCut_append_iff (by decide)).not.mpr (by decide +kernel)
  exact ⟨by decide +kernel,
    (fragment_append_places .inText {} "x<a href='y" "'>z" (by decide +kernel)).2.2.2.2
      (by decide) hcut⟩

end Document

end MarkupTrim
