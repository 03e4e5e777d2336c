import MarkupTrim.Proofs.Spacing.Again

/-! # Repairing in two parts

When a text that is cut in two can be repaired part by part. The rule for gaps looks past the cut in
three ways (`CutShows`): the last tag of the front part may or may not be an opening one once the
back part is known; a gap may stand at the cut itself; a closing tag may reach over the cut. Two
repairs that differ in a gap differ as texts, so repairing part by part is repairing the whole iff
none of the three happens (`fill_append_iff`). -/

namespace MarkupTrim.Spacing

/-- **The cut between two parts of a text shows** when each is repaired alone. -/
inductive CutShows (front back : List Char) : Prop where
  /-- From a `<` behind something solid on, the front part opens alone but not with the back part,
  or the other way round. -/
  | opening {before inner : List Char} : front = before ++ '<' :: inner → EndsSolid before →
      ¬ (Opens ('<' :: inner) ↔ Opens ('<' :: (inner ++ back))) → CutShows front back
  /-- A space is missing at the cut. -/
  | seam : Gap front back → CutShows front back
  /-- A closing tag that starts in the front part ends in the back part, in front of a letter or
  digit. -/
  | closing {inner ahead : List Char} : back = inner ++ ahead → inner ≠ [] →
      Closes (front ++ inner) → ¬ Closes inner → StartsWord ahead → CutShows front back

/-! ### Tags at the cut -/

/-- Whether a part opens can hang on what follows only where it is the start of `<name`. -/
theorem opens_cut {inner back : List Char}
    (h : ¬ (Opens ('<' :: inner) ↔ Opens ('<' :: (inner ++ back)))) :
    ∃ name ∈ inlineNames, inner <+: name.toList := by
  by_contra hnone
  push Not at hnone
  refine h ⟨?_, ?_⟩
  · rintro ⟨name, hname, rest, he, hends⟩
    obtain rfl := (List.cons.inj he).2
    rcases rest with _ | ⟨c, rest⟩
    · exact absurd (by simp) (hnone name hname)
    · exact ⟨name, hname, c :: rest ++ back, by simp, hends⟩
  · rintro ⟨name, hname, rest, he, hends⟩
    rcases List.append_eq_append_iff.mp (List.cons.inj he).2 with ⟨x, hx, -⟩ | ⟨x, rfl, rfl⟩
    · exact absurd ⟨x, hx.symm⟩ (hnone name hname)
    · rcases x with _ | ⟨c, x⟩
      · exact absurd (by simp) (hnone name hname)
      · exact ⟨name, hname, c :: x, rfl, hends⟩

/-! ### The gaps of the two parts -/

/-- The gaps of the front part do not depend on the back part unless a tag does. -/
theorem agree_front_iff (front back : List Char) :
    Agree (fun x y => isGap x (y ++ back)) isGap [] front ↔
      ∀ before inner, front = before ++ '<' :: inner → EndsSolid before →
        (Opens ('<' :: inner) ↔ Opens ('<' :: (inner ++ back))) := by
  constructor
  · intro h before inner he hsolid
    have hgap := decide_eq_decide.mp (h before ('<' :: inner) he (by simp))
    rw [List.nil_append, List.cons_append, gap_lt_iff, gap_lt_iff] at hgap
    simpa [hsolid, iff_comm] using hgap
  · intro h as bs he hbs
    obtain ⟨c, bs, rfl⟩ := List.exists_cons_of_ne_nil hbs
    refine decide_eq_decide.mpr ?_
    rw [List.nil_append, List.cons_append]
    by_cases hc : c = '<'
    · subst hc
      rw [gap_lt_iff, gap_lt_iff]
      exact and_congr_right fun hsolid => (h as bs he hsolid).symm
    · rw [gap_cons_iff hc, gap_cons_iff hc]

/-- The gaps of the back part do not depend on the front part unless one stands at the cut or a
closing tag reaches over it. -/
theorem agree_back_iff (front back : List Char) :
    Agree (fun x y => isGap (front ++ x) y) isGap [] back ↔
      ¬ Gap front back ∧ ∀ inner ahead, back = inner ++ ahead → inner ≠ [] →
        StartsWord ahead → Closes (front ++ inner) → Closes inner := by
  constructor
  · intro h
    constructor
    · intro hgap
      have hne : back ≠ [] := by rintro rfl; exact not_gap_of_nil_ahead _ hgap
      have := decide_eq_decide.mp (h [] back rfl hne)
      simp only [List.append_nil] at this
      exact not_gap_nil _ (this.mp hgap)
    · intro inner ahead he hinner hword hcloses
      obtain ⟨c, rest, rfl, hc⟩ := hword.exists_eq
      have hgap := decide_eq_decide.mp (h inner (c :: rest) he (by simp))
      have hne : c ≠ '<' := by rintro rfl; exact absurd hc (by decide)
      rw [List.nil_append, gap_cons_iff hne, gap_cons_iff hne] at hgap
      exact (hgap.mp ⟨hcloses, hc⟩).1
  · rintro ⟨hseam, hclosing⟩ as bs rfl hbs
    refine decide_eq_decide.mpr ?_
    rw [List.nil_append]
    by_cases has : as = []
    · subst has
      rw [List.append_nil]
      exact iff_of_false hseam (not_gap_nil _)
    · refine gap_append_iff has fun hword => ?_
      exact ⟨hclosing as bs rfl has hword, fun h => h.append_left front⟩

/-- **Repairing part by part is repairing the whole iff the cut does not show.** -/
theorem fill_append_iff (front back : List Char) :
    fill isGap [] front ++ fill isGap [] back = fill isGap [] (front ++ back) ↔
      ¬ CutShows front back := by
  have hspace : NotBeforeSpace isGap := notBeforeSpace_isGap
  have hwhole : fill isGap [] (front ++ back) = fill (fun x y => isGap x (y ++ back)) [] front ++
      fill (fun x y => isGap (front ++ x) y) [] back := by
    rw [fill_append, ← fill_before, List.nil_append, List.append_nil]
  rw [hwhole, eq_comm, fill_append_eq_iff (fun x y => hspace x (y ++ back)) hspace,
    fill_eq_iff (fun x y => hspace (front ++ x) y) hspace, agree_front_iff, agree_back_iff]
  constructor
  · rintro ⟨hopening, hseam, hclosing⟩ (⟨he, hsolid, hne⟩ | hgap | ⟨he, hinner, hc, hnot, hword⟩)
    · exact hne (hopening _ _ he hsolid)
    · exact hseam hgap
    · exact hnot (hclosing _ _ he hinner hword hc)
  · intro h
    refine ⟨fun before inner he hsolid => ?_, fun hgap => h (.seam hgap), ?_⟩
    · by_contra hne
      exact h (.opening he hsolid hne)
    · intro inner ahead he hinner hword hcloses
      by_contra hnot
      exact h (.closing he hinner hcloses hnot hword)

end MarkupTrim.Spacing
