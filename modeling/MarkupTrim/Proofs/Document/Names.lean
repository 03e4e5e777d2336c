import MarkupTrim.Proofs.Document.Fragment

/-! # Which names are inline

Three things ask whether an element is inline. An announcement looks its name up in the catalog. A
repair reads a name in a tag, an opening one up to what ends the name and a closing one up to its `>`.
They agree on every text that can be a name in a tag (`isInline_iff_spaced`), though many names of the
catalog are the start of another one, or of the name of a block (`b`, `br`, `body`): a name is only
read where it ends. -/

namespace MarkupTrim

open Spacing

/-- The text can be a name in a tag: nothing in it opens a tag or ends a name. -/
def CanName (name : String) : Prop := ∀ c ∈ name.toList, c ≠ '<' ∧ endsName c = false

instance : DecidablePred CanName := fun name =>
  decidable_of_iff (name.toList.all fun c => decide (c ≠ '<') && !endsName c) (by
    simp [CanName, List.all_eq_true])

theorem canName_of_mem_inlineNames {name : String} (h : name ∈ inlineNames) : CanName name := by
  intro c hc
  have hlower := isLower_of_mem_name h hc
  refine ⟨ne_of_isLower hlower (by decide), ?_⟩
  by_contra hends
  rw [not_isLower_of_endsName (by simpa using hends)] at hlower
  cases hlower

namespace CanName

variable {name : String} (h : CanName name)
include h

theorem notMem {c : Char} (hc : c = '<' ∨ endsName c = true) : c ∉ name.toList := by
  intro hmem
  obtain ⟨hlt, hends⟩ := h c hmem
  rcases hc with rfl | hc
  · exact hlt rfl
  · rw [hc] at hends
    cases hends

/-- A name in front of what ends it is read as a whole. -/
theorem takeWhile_eq {rest : List Char} (hrest : NameEnds rest) :
    (name.toList ++ rest).takeWhile (fun c => !endsName c) = name.toList := by
  have hname : ∀ c ∈ name.toList, (!endsName c) = true := fun c hc => by
    rw [(h c hc).2]
    rfl
  rw [List.takeWhile_append_of_pos hname]
  rcases rest with _ | ⟨c, rest⟩
  · rw [List.takeWhile_nil, List.append_nil]
  · have hc : endsName c = true := hrest
    rw [List.takeWhile_cons_of_neg (by simp [hc]), List.append_nil]

/-- **An opening tag is an inline one iff its name is inline.** -/
theorem opens_iff {rest : List Char} (hrest : NameEnds rest) :
    Opens ('<' :: (name.toList ++ rest)) ↔ isInline name = true := by
  rw [isInline_iff]
  constructor
  · rintro ⟨other, hother, rest', he, hrest'⟩
    have hread := h.takeWhile_eq hrest
    rw [(List.cons.inj he).2, (canName_of_mem_inlineNames hother).takeWhile_eq hrest'] at hread
    rwa [← String.toList_inj.mp hread]
  · intro hname
    exact ⟨name, hname, rest, rfl, hrest⟩

theorem slash_notMem : '<' ∉ '/' :: name.toList ∧ '>' ∉ '/' :: name.toList := by
  constructor
  · exact List.not_mem_cons_of_ne_of_not_mem (by decide) (h.notMem (by decide))
  · exact List.not_mem_cons_of_ne_of_not_mem (by decide) (h.notMem (by decide))

/-- **A closing tag is an inline one iff its name is inline.** -/
theorem closes_iff : Closes (closingTag name) ↔ isInline name = true := by
  have hlt : '<' ∉ '/' :: (name.toList ++ ['>']) := by simpa using h.slash_notMem.1
  have hcloses := closes_lt_iff (p := []) hlt
  rw [List.nil_append] at hcloses
  rw [closingTag, hcloses, isInline_iff]
  constructor
  · rintro ⟨other, hother, he⟩
    have hname := (List.append_inj' (List.cons.inj he).2 rfl).1
    rwa [String.toList_inj.mp hname]
  · intro hname
    exact ⟨name, hname, rfl⟩

/-- Repair of a character and an opening tag. -/
theorem fill_opening {c : Char} (hc : isBlank c = false) {rest : List Char} (hrest : NameEnds rest) :
    ∃ tail, fill isGap [] (c :: '<' :: (name.toList ++ rest)) =
      c :: (spaceIf (isInline name = true) ++ '<' :: tail) := by
  have hsolid : EndsSolid [c] := by simpa [EndsSolid] using hc
  have hgap : isGap [c] ('<' :: (name.toList ++ rest)) = true ↔ isInline name = true := by
    rw [isGap_iff, gap_lt_iff, h.opens_iff hrest]
    exact and_iff_right hsolid
  refine ⟨fill isGap [c, '<'] (name.toList ++ rest), ?_⟩
  rw [fill_cons_of_not_gap (isGap_eq_false_iff.mpr (not_gap_nil _)), List.nil_append, fill_cons,
    spaceIf_congr hgap]
  rfl

/-- Repair of a closing tag and a letter or digit. -/
theorem fill_closing {d : Char} (hd : d.isAlphanum = true) :
    fill isGap [] (closingTag name ++ [d]) =
      closingTag name ++ (spaceIf (isInline name = true) ++ [d]) := by
  obtain ⟨hlt, hgt⟩ := h.slash_notMem
  have hfront : fill (fun x y => isGap x (y ++ [d])) [] (closingTag name) = closingTag name := by
    refine fill_eq_self fun as bs he hbs => isGap_eq_false_iff.mpr ?_
    rcases as with _ | ⟨c, as⟩
    · exact not_gap_nil _
    · obtain ⟨rfl, htail⟩ := List.cons.inj he
      exact not_gap_in_tag hlt hgt htail hbs [] [d]
  have hne : d ≠ '<' := by
    rintro rfl
    exact absurd hd (by decide)
  have hgap : isGap (closingTag name) [d] = true ↔ isInline name = true := by
    rw [isGap_iff, gap_cons_iff hne, h.closes_iff]
    exact and_iff_left hd
  rw [fill_append, hfront, List.nil_append, fill_cons, spaceIf_congr hgap, fill_nil]

end CanName

/-- **The notions of an inline element agree.** A repair puts a space between a solid character and an
opening tag iff the name of the tag is inline, whatever ends the name; it puts one behind a closing tag
in front of a letter or digit of ASCII iff the name is inline; and so does an announcement arm the
hint. -/
theorem isInline_iff_spaced (name : String) (hname : CanName name) :
    (∀ (c : Char) (rest : String), isBlank c = false → NameEnds rest.toList →
      ([c, ' ', '<'] <+: (repair (String.singleton c ++ "<" ++ name ++ rest)).text.toList ↔
        isInline name = true)) ∧
    (∀ d : Char, d.isAlphanum = true →
      (repair ("</" ++ name ++ ">" ++ String.singleton d)).text =
        "</" ++ name ++ ">" ++ (if isInline name = true then " " else "") ++ String.singleton d) ∧
    ∀ document : Document, document.mode = .minify →
      ((document.announce name).document.hintPending = true ↔ isInline name = true) := by
  refine ⟨fun c rest hc hrest => ?_, fun d hd => ?_, fun document hm => ?_⟩
  · obtain ⟨tail, htail⟩ := hname.fill_opening hc hrest
    have htext : (String.singleton c ++ "<" ++ name ++ rest).toList =
        c :: '<' :: (name.toList ++ rest.toList) := by simp
    rw [toList_repair, htext, htail, List.cons_prefix_cons]
    by_cases hinline : isInline name = true
    · rw [spaceIf_pos hinline]
      exact iff_of_true ⟨rfl, List.prefix_append [' ', '<'] tail⟩ hinline
    · rw [spaceIf_neg hinline, List.nil_append]
      exact iff_of_false (fun h => absurd (List.cons_prefix_cons.mp h.2).1 (by decide)) hinline
  · have htext : ("</" ++ name ++ ">" ++ String.singleton d).toList = closingTag name ++ [d] := by
      simp [closingTag]
    rw [← String.toList_inj, toList_repair, htext, hname.fill_closing hd]
    simp [closingTag, toList_ite_space]
  · rw [Document.hintPending_announce hm]

/-- A name of the catalog that is the start of another one, and the name of a block that starts with
it. -/
theorem isInline_iff_spaced_names :
    CanName "b" ∧ CanName "body" ∧
      ['x', ' ', '<'] <+: (repair ("x" ++ "<" ++ "b" ++ "/>")).text.toList ∧
      ¬ ['x', ' ', '<'] <+: (repair ("x" ++ "<" ++ "body" ++ "/>")).text.toList ∧
      (repair ("</" ++ "b" ++ ">" ++ "1")).text = "</" ++ "b" ++ ">" ++ " " ++ "1" ∧
      (({} : Document).announce "b").document.hintPending = true := by
  have hshort : CanName "b" := by decide +kernel
  have hlong : CanName "body" := by decide +kernel
  have hinline : isInline "b" = true := by decide +kernel
  obtain ⟨hopening, hclosing, hannounced⟩ := isInline_iff_spaced "b" hshort
  refine ⟨hshort, hlong, (hopening 'x' "/>" (by decide) (by decide)).mpr hinline, ?_,
    hclosing '1' (by decide), (hannounced {} rfl).mpr hinline⟩
  intro hspaced
  have hblock := ((isInline_iff_spaced "body" hlong).1 'x' "/>" (by decide) (by decide)).mp hspaced
  exact absurd hblock (by decide +kernel)

end MarkupTrim
