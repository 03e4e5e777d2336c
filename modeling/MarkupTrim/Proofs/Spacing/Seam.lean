import MarkupTrim.Proofs.Spacing.Cut

/-! # Cuts outside of tags

A part of a text is *shut* if behind every `<` of it comes a `>`, as in front of a place outside of
tags. No tag reaches over such a place, so the gaps on either side are those of the two parts alone
(`Shut.gap_append_iff`, `Shut.opens_append_iff`): a text that is cut there is repaired part by part,
but for one space that may stand at the cut (`fill_append_of_shut`). A stretch of text that follows
gets at most one space at each end (`fill_text_lt`, `exists_of_fill_eq`). -/

namespace MarkupTrim.Spacing

/-- Behind every `<` comes a `>`. -/
def Shut (cs : List Char) : Prop := ∀ before inner, cs = before ++ '<' :: inner → '>' ∈ inner

theorem lt_notMem_spaced (first last : Prop) [Decidable first] [Decidable last] {text : List Char}
    (hlt : '<' ∉ text) : '<' ∉ spaceIf first ++ (text ++ spaceIf last) := by
  simp only [List.mem_append, not_or]
  exact ⟨fun hm => absurd (eq_of_mem_spaceIf hm) (by decide), hlt,
    fun hm => absurd (eq_of_mem_spaceIf hm) (by decide)⟩

/-- A tag gets a space in front at most. -/
theorem fill_tag {tail : List Char} (hlt : '<' ∉ tail) (hgt : '>' ∉ tail) (before : List Char) :
    fill isGap before ('<' :: (tail ++ ['>'])) =
      spaceIf (Gap before ('<' :: (tail ++ ['>']))) ++ '<' :: (tail ++ ['>']) := by
  have hin : fill isGap (before ++ ['<']) (tail ++ ['>']) = tail ++ ['>'] := by
    refine fill_eq_self fun as bs he hbs => isGap_eq_false_iff.mpr ?_
    have hgap := not_gap_in_tag hlt hgt he hbs before []
    rwa [List.append_nil, ← List.append_cons] at *
  rw [fill_cons, hin, spaceIf_congr isGap_iff]

variable {front back : List Char} (h : Shut front)
include h

theorem Shut.opens_append_iff {before inner : List Char} (he : front = before ++ '<' :: inner)
    (back : List Char) : Opens ('<' :: inner) ↔ Opens ('<' :: (inner ++ back)) := by
  by_contra hnot
  obtain ⟨name, hname, hpre⟩ := opens_cut hnot
  exact notMem_name hname (by decide) (hpre.subset (h before inner he))

theorem Shut.gap_append_iff {as : List Char} (has : as ≠ []) (bs : List Char) :
    Gap (front ++ as) bs ↔ Gap as bs := by
  refine Spacing.gap_append_iff has fun _ => ?_
  by_contra hnot
  obtain ⟨name, hname, before, u, w, he, -, hsplit⟩ := closes_cut has hnot
  have hgt := notMem_slash_name hname (c := '>') (by decide) (by decide)
  rw [hsplit] at hgt
  exact hgt (List.mem_append_left w (h before u he))

/-- **A text that is cut outside of tags is repaired part by part**, but for the cut itself. -/
theorem fill_append_of_shut (back : List Char) :
    fill isGap [] (front ++ back) =
      fill isGap [] front ++ (spaceIf (Gap front back) ++ fill isGap [] back) := by
  have hfront : fill (fun x y => isGap x (y ++ back)) [] front = fill isGap [] front :=
    fill_congr ((agree_front_iff front back).mpr fun _ _ he _ => h.opens_append_iff he back)
  rw [fill_append, hfront, List.nil_append]
  congr 1
  rcases back with _ | ⟨c, cs⟩
  · rw [spaceIf_neg (not_gap_of_nil_ahead front)]
    rfl
  · have hback : fill isGap (front ++ [c]) cs = fill isGap [c] cs := by
      rw [fill_before]
      refine fill_congr fun as bs _ _ => decide_eq_decide.mpr ?_
      exact h.gap_append_iff (by simp) bs
    have hnot := isGap_eq_false_iff.mpr (not_gap_nil (c :: cs))
    rw [fill_cons, fill_cons_of_not_gap hnot, hback, List.nil_append, spaceIf_congr isGap_iff]

/-- In a stretch without `<` a space is missing at the front only, behind a closing tag. -/
theorem fill_text {text : List Char} (hlt : '<' ∉ text) (ahead : List Char) :
    fill (fun x y => isGap x (y ++ ahead)) front text =
      spaceIf (Closes front ∧ StartsWord text) ++ text := by
  rcases text with _ | ⟨c, cs⟩
  · have hword : ¬ StartsWord [] := fun hw => by cases hw
    rw [spaceIf_neg fun hw => hword hw.2]
    rfl
  have hhead : ∀ d ∈ c :: cs, d ≠ '<' := fun d hd he => hlt (he ▸ hd)
  have hrest : fill (fun x y => isGap x (y ++ ahead)) (front ++ [c]) cs = cs := by
    refine fill_eq_self fun as bs he hbs => isGap_eq_false_iff.mpr fun hgap => ?_
    obtain ⟨d, ds, rfl⟩ := List.exists_cons_of_ne_nil hbs
    have hd : d ≠ '<' := hhead d (by rw [he]; simp)
    rw [List.append_assoc, h.gap_append_iff (by simp)] at hgap
    -- A closing tag within the stretch would start with a `<`.
    obtain ⟨name, -, p, hp⟩ := ((gap_cons_iff hd).mp hgap).1
    have hmem : '<' ∈ p ++ closingTag name := List.mem_append_right p List.mem_cons_self
    rw [hp] at hmem
    refine hlt ?_
    rw [he, ← List.singleton_append, ← List.append_assoc]
    exact List.mem_append_left _ hmem
  have hgap : isGap front (c :: cs ++ ahead) = true ↔ Closes front ∧ StartsWord (c :: cs) := by
    rw [isGap_iff, List.cons_append, gap_cons_iff (hhead c List.mem_cons_self)]
    exact Iff.rfl
  rw [fill_cons, hrest, spaceIf_congr hgap]

/-- A stretch behind which a `<` stands gets at most one space at each end. -/
theorem fill_text_lt {text : List Char} (hlt : '<' ∉ text) (ahead : List Char) :
    fill isGap front (text ++ '<' :: ahead) =
      (spaceIf (Closes front ∧ StartsWord text) ++
        (text ++ spaceIf (EndsSolid (front ++ text) ∧ Opens ('<' :: ahead)))) ++
        '<' :: fill isGap (front ++ text ++ ['<']) ahead := by
  have hgap : isGap (front ++ text) ('<' :: ahead) = true ↔
      EndsSolid (front ++ text) ∧ Opens ('<' :: ahead) := by rw [isGap_iff, gap_lt_iff]
  rw [fill_append, fill_text h hlt, fill_cons, spaceIf_congr hgap]
  simp only [List.append_assoc]

/-- **A stretch of a filled text** up to the next tag: a stretch of the text, behind a space if a
closing tag stands in front and it starts with a word, and in front of a space if it ends in something
solid and an opening tag follows. -/
theorem exists_of_fill_eq {text vs bs : List Char} (he : fill isGap front bs = text ++ vs)
    (hlt : '<' ∉ text) (hvs : vs = [] ∨ ∃ rest, vs = '<' :: rest) :
    ∃ core ds tail, bs = core ++ ds ∧ '<' ∉ core ∧ (ds = [] ∨ ∃ rest, ds = '<' :: rest) ∧
      text = spaceIf (Closes front ∧ StartsWord core) ++ (core ++ tail) ∧
      (tail = [] ∨ tail = [' '] ∧ EndsSolid (front ++ core) ∧ Opens vs) := by
  by_cases hmem : '<' ∈ bs
  · -- The stretch goes on to the `<` of a tag.
    obtain ⟨core, rest, rfl, hcore⟩ := List.eq_append_cons_of_mem hmem
    rw [fill_text_lt h hcore] at he
    rcases hvs with rfl | ⟨vs, rfl⟩
    · rw [List.append_nil] at he
      exact absurd (by rw [← he]; simp) hlt
    · obtain ⟨rfl, rfl⟩ := append_lt_inj he.symm hlt (lt_notMem_spaced _ _ hcore)
      refine ⟨core, '<' :: rest, _, rfl, hcore, Or.inr ⟨rest, rfl⟩, rfl, ?_⟩
      rcases spaceIf_cases (EndsSolid (front ++ core) ∧ Opens ('<' :: rest)) with
        hspace | ⟨hspace, hsolid, hopens⟩
      · exact Or.inl hspace
      · exact Or.inr ⟨hspace, hsolid, opens_fill fills_isGap hopens (front ++ core)⟩
  · -- The stretch goes on to the end.
    have hfill := fill_text h hmem []
    simp only [List.append_nil] at hfill
    rw [hfill] at he
    have hvs : vs = [] := by
      rcases hvs with rfl | ⟨rest, rfl⟩
      · rfl
      · have hlast := lt_notMem_spaced (Closes front ∧ StartsWord bs) False hmem
        rw [spaceIf_neg not_false, List.append_nil, he] at hlast
        exact absurd (by simp) hlast
    rw [hvs, List.append_nil] at he
    exact ⟨bs, [], [], (List.append_nil bs).symm, hmem, Or.inl rfl,
      by rw [List.append_nil, he], Or.inl rfl⟩

end MarkupTrim.Spacing
