import MarkupTrim.Proofs.Spacing.Cut
import Mathlib.Data.Finset.Image
import Mathlib.Data.Finset.Union

/-! # The places of gaps

Gaps by number: the place `p` of a text has `p` characters in front of it. A repaired text is the
text with one space at each place of a gap (`fill_eq_spaced`), and two texts repaired apart are the
joined text with one space at each place of a gap of the parts (`fill_append_fill_eq_spaced`). The
two sets of places differ near the cut only: in front of a `<` behind which the front part has no more
than the start of a name (`exists_of_differ_front`), at the cut, or behind the first `>` of the back
part (`exists_of_differ_back`). -/

namespace MarkupTrim.Spacing

/-- The places of a text where a space is missing. -/
def gapPlaces (cs : List Char) : Finset ℕ :=
  (Finset.range cs.length).filter fun p => Gap (cs.take p) (cs.drop p)

/-- The places of a text where a space is missing in one of its two parts. -/
def partPlaces (front back : List Char) : Finset ℕ :=
  gapPlaces front ∪ (gapPlaces back).image (front.length + ·)

/-- A text, from the place `p` on, with one space at each of the places. -/
def spaced (places : Finset ℕ) (p : ℕ) : List Char → List Char
  | [] => []
  | c :: cs => spaceIf (p ∈ places) ++ c :: spaced places (p + 1) cs

theorem length_mem_gapPlaces (as bs : List Char) :
    as.length ∈ gapPlaces (as ++ bs) ↔ Gap as bs := by
  rw [gapPlaces, Finset.mem_filter, List.take_left, List.drop_left, Finset.mem_range]
  refine and_iff_right_of_imp fun hgap => ?_
  have hbs : bs ≠ [] := by rintro rfl; exact not_gap_of_nil_ahead as hgap
  have := List.length_pos_iff.mpr hbs
  rw [List.length_append]
  omega

theorem lt_of_mem_gapPlaces {cs : List Char} {p : ℕ} (h : p ∈ gapPlaces cs) : p < cs.length :=
  Finset.mem_range.mp (Finset.mem_filter.mp h).1

theorem mem_partPlaces_front {front back : List Char} {p : ℕ} (h : p < front.length) :
    p ∈ partPlaces front back ↔ p ∈ gapPlaces front := by
  rw [partPlaces, Finset.mem_union]
  refine or_iff_left fun hmem => ?_
  obtain ⟨q, -, rfl⟩ := Finset.mem_image.mp hmem
  omega

theorem mem_partPlaces_back {front back : List Char} (q : ℕ) :
    front.length + q ∈ partPlaces front back ↔ q ∈ gapPlaces back := by
  rw [partPlaces, Finset.mem_union, Finset.mem_image]
  constructor
  · rintro (hmem | ⟨r, hr, he⟩)
    · have := lt_of_mem_gapPlaces hmem
      omega
    · obtain rfl : r = q := by omega
      exact hr
  · exact fun hmem => Or.inr ⟨q, hmem, rfl⟩

/-! ### Spaces at places -/

theorem spaced_append (places : Finset ℕ) (p : ℕ) (as bs : List Char) :
    spaced places p (as ++ bs) = spaced places p as ++ spaced places (p + as.length) bs := by
  induction as generalizing p with
  | nil => rfl
  | cons a as ih =>
    have hlen : p + 1 + as.length = p + (a :: as).length := by rw [List.length_cons]; omega
    rw [List.cons_append, spaced, spaced, ih, hlen, List.append_assoc, List.cons_append]

/-- A text is filled at places when the rule finds its gaps at these places. -/
theorem fill_eq_spaced_of {gap : List Char → List Char → Bool} {places : Finset ℕ} {p : ℕ}
    {before cs : List Char}
    (h : ∀ as bs, cs = as ++ bs → bs ≠ [] →
      (gap (before ++ as) bs = true ↔ p + as.length ∈ places)) :
    fill gap before cs = spaced places p cs := by
  induction cs generalizing before p with
  | nil => rfl
  | cons c cs ih =>
    have hhead : gap before (c :: cs) = true ↔ p ∈ places := by
      simpa using h [] (c :: cs) rfl (by simp)
    have htail : fill gap (before ++ [c]) cs = spaced places (p + 1) cs := by
      refine ih fun as bs he hbs => ?_
      have hnext := h (c :: as) bs (by rw [he]; rfl) hbs
      rw [List.length_cons, show p + (as.length + 1) = p + 1 + as.length by omega] at hnext
      simpa using hnext
    rw [fill_cons, spaced, htail, spaceIf_congr hhead]

/-- **A repaired text has one space at each place of a gap.** -/
theorem fill_eq_spaced (cs : List Char) : fill isGap [] cs = spaced (gapPlaces cs) 0 cs := by
  refine fill_eq_spaced_of fun as bs he _ => ?_
  rw [Nat.zero_add, List.nil_append, isGap_iff, he, length_mem_gapPlaces]

/-- **Two texts repaired apart** have one space at each place of a gap of the parts. -/
theorem fill_append_fill_eq_spaced (front back : List Char) :
    fill isGap [] front ++ fill isGap [] back =
      spaced (partPlaces front back) 0 (front ++ back) := by
  have hfront : fill isGap [] front = spaced (partPlaces front back) 0 front := by
    refine fill_eq_spaced_of fun as bs he hbs => ?_
    have hlt : as.length < front.length := by
      have := List.length_pos_iff.mpr hbs
      rw [he, List.length_append]
      omega
    rw [Nat.zero_add, List.nil_append, isGap_iff, mem_partPlaces_front hlt, he,
      length_mem_gapPlaces]
  have hback : fill isGap [] back = spaced (partPlaces front back) front.length back := by
    refine fill_eq_spaced_of fun as bs he _ => ?_
    rw [mem_partPlaces_back, List.nil_append, isGap_iff, he, length_mem_gapPlaces]
  rw [spaced_append, Nat.zero_add, hfront, hback]

/-! ### Where the places differ -/

/-- In front of the cut the places differ only at a `<` behind which all is the start of a name. -/
theorem exists_of_differ_front {front back : List Char} {p : ℕ} (hp : p < front.length)
    (h : ¬ (p ∈ gapPlaces (front ++ back) ↔ p ∈ partPlaces front back)) :
    ∃ before inner, front = before ++ '<' :: inner ∧ p = before.length ∧
      ∃ name ∈ inlineNames, inner <+: name.toList := by
  obtain ⟨before, ahead, rfl, rfl⟩ : ∃ before ahead, front = before ++ ahead ∧ before.length = p :=
    ⟨front.take p, front.drop p, (List.take_append_drop p front).symm,
      List.length_take_of_le (Nat.le_of_lt hp)⟩
  rw [mem_partPlaces_front hp, length_mem_gapPlaces, List.append_assoc, length_mem_gapPlaces] at h
  rcases ahead with _ | ⟨c, inner⟩
  · simp at hp
  rw [List.cons_append] at h
  by_cases hc : c = '<'
  · subst hc
    rw [gap_lt_iff, gap_lt_iff] at h
    have hopens : ¬ (Opens ('<' :: inner) ↔ Opens ('<' :: (inner ++ back))) := fun hiff => by
      rw [hiff] at h
      exact h Iff.rfl
    exact ⟨before, inner, rfl, rfl, opens_cut hopens⟩
  · rw [gap_cons_iff hc, gap_cons_iff hc] at h
    exact absurd Iff.rfl h

/-- Behind the cut the places differ only behind the first `>`. -/
theorem exists_of_differ_back {front back : List Char} {q : ℕ} (hq : 0 < q)
    (h : ¬ (front.length + q ∈ gapPlaces (front ++ back) ↔
      front.length + q ∈ partPlaces front back)) :
    ∃ inner ahead, back = inner ++ '>' :: ahead ∧ '>' ∉ inner ∧ q = inner.length + 1 := by
  by_cases hlen : q < back.length
  · obtain ⟨as, bs, rfl, rfl⟩ : ∃ as bs, back = as ++ bs ∧ as.length = q :=
      ⟨back.take q, back.drop q, (List.take_append_drop q back).symm,
        List.length_take_of_le (Nat.le_of_lt hlen)⟩
    have has : as ≠ [] := List.length_pos_iff.mp hq
    rw [mem_partPlaces_back, length_mem_gapPlaces, ← List.append_assoc, ← List.length_append,
      length_mem_gapPlaces] at h
    obtain ⟨name, hname, -, u, w, -, rfl, hsplit⟩ :=
      closes_cut has fun hiff => h (gap_append_iff has fun _ => hiff)
    have hgt := notMem_slash_name hname (c := '>') (by decide) (by decide)
    rw [hsplit] at hgt
    exact ⟨w, bs, by simp, fun hmem => hgt (List.mem_append_right u hmem), by simp⟩
  · refine absurd (iff_of_false (fun hmem => ?_) (fun hmem => ?_)) h
    · have := lt_of_mem_gapPlaces hmem
      rw [List.length_append] at this
      omega
    · have := lt_of_mem_gapPlaces ((mem_partPlaces_back q).mp hmem)
      omega

end MarkupTrim.Spacing
