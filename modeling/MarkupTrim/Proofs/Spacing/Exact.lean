import MarkupTrim.Proofs.Spacing.Places

/-! # Exactly the gaps

Repair puts one space at each place of a gap and changes nothing else, and it gives the text back as it
is iff the text has no gap (`repair_spaced`).

Some inline names start with others (`b`, `br`, `button`). The search reads the letters behind a `<`
and looks them up as one name. Trying the names in the order of the catalog and taking the first that
fits gives the same tags (`leadingTag?_eq_firstTag?`): a name fits only if what follows ends it, so
where one fits no other does. -/

namespace MarkupTrim.Spacing

/-! ### Names in the order of the catalog -/

/-- The number of characters of `<name` and what ends the name, if a text starts with that. -/
def openingOf? (name : String) (cs : List Char) : Option ℕ :=
  match cs.dropPrefix? ('<' :: name.toList) with
  | some [] => some (name.toList.length + 1)
  | some (c :: _) => if endsName c then some (name.toList.length + 2) else none
  | none => none

/-- The number of characters of `</name>`, if a text starts with that. -/
def closingOf? (name : String) (cs : List Char) : Option ℕ :=
  if closingTag name <+: cs then some (closingTag name).length else none

/-- The inline tag that a text starts with, found by trying one name after another. -/
def firstTag? (cs : List Char) : Option (TagKind × ℕ) :=
  match inlineNames.findSome? (openingOf? · cs) with
  | some count => some (.opening, count)
  | none => (inlineNames.findSome? (closingOf? · cs)).map fun count => (.closing, count)

/-- If all elements that give something give the same, the first of them gives it. -/
theorem findSome?_eq {α β : Type} {as : List α} {f : α → Option β} {found : Option β}
    (h : ∀ b, found = some b ↔ ∃ a ∈ as, f a = some b) : as.findSome? f = found := by
  rcases hf : as.findSome? f with _ | b
  · rcases found with _ | b
    · rfl
    · obtain ⟨a, ha, hb⟩ := (h b).mp rfl
      rw [List.findSome?_eq_none_iff.mp hf a ha] at hb
      cases hb
  · exact ((h b).mpr (List.exists_of_findSome?_eq_some hf)).symm

theorem openingOf?_eq_some_iff {name : String} {cs : List Char} {count : ℕ} :
    openingOf? name cs = some count ↔
      ∃ stop rest, cs = '<' :: (name.toList ++ (stop ++ rest)) ∧
        count = name.toList.length + stop.length + 1 ∧
        (stop = [] ∧ rest = [] ∨ ∃ c, stop = [c] ∧ endsName c = true) := by
  have hdrop (ahead : List Char) :
      cs.dropPrefix? ('<' :: name.toList) = some ahead ↔ cs = '<' :: (name.toList ++ ahead) := by
    simp [List.dropPrefix?_eq_some_iff]
  unfold openingOf?
  constructor
  · intro h
    split at h
    · next hcs =>
      exact ⟨[], [], (hdrop []).mp hcs, (Option.some.inj h).symm, Or.inl ⟨rfl, rfl⟩⟩
    · next c rest hcs =>
      split_ifs at h with hc
      exact ⟨[c], rest, (hdrop (c :: rest)).mp hcs, (Option.some.inj h).symm, Or.inr ⟨c, rfl, hc⟩⟩
    · cases h
  · rintro ⟨stop, rest, hcs, rfl, ⟨rfl, rfl⟩ | ⟨c, rfl, hc⟩⟩
    · rw [(hdrop []).mpr hcs]; rfl
    · rw [(hdrop (c :: rest)).mpr hcs]
      exact if_pos hc

theorem opening?_eq_some_iff {cs : List Char} {count : ℕ} :
    opening? cs = some count ↔ ∃ name ∈ inlineNames, openingOf? name cs = some count := by
  constructor
  · intro h
    obtain ⟨name, hname, hfits⟩ := opening?_eq_some h
    exact ⟨name, hname, openingOf?_eq_some_iff.mpr hfits⟩
  · rintro ⟨name, hname, h⟩
    obtain ⟨stop, rest, rfl, rfl, ⟨rfl, rfl⟩ | ⟨c, rfl, hc⟩⟩ := openingOf?_eq_some_iff.mp h
    · rw [opening?_eq hname (by simp)]; simp
    · rw [opening?_eq hname (by simpa using not_isLower_of_endsName hc)]
      simp [hc]

theorem closing?_eq_some_iff {cs : List Char} {count : ℕ} :
    closing? cs = some count ↔ ∃ name ∈ inlineNames, closingOf? name cs = some count := by
  constructor
  · intro h
    obtain ⟨name, hname, rest, rfl⟩ := closing?_eq_some h
    rw [closing?_closingTag hname] at h
    exact ⟨name, hname, by rw [closingOf?, if_pos (List.prefix_append _ _), h]⟩
  · rintro ⟨name, hname, h⟩
    unfold closingOf? at h
    split_ifs at h with htag
    obtain ⟨rest, rfl⟩ := htag
    rw [closing?_closingTag hname, h]

/-- **No name hides another**: the tag at the front of a text is the one that the first name of the
catalog that fits there gives. -/
theorem leadingTag?_eq_firstTag? (cs : List Char) : leadingTag? cs = firstTag? cs := by
  have hopening : inlineNames.findSome? (openingOf? · cs) = opening? cs :=
    findSome?_eq fun _ => opening?_eq_some_iff
  have hclosing : inlineNames.findSome? (closingOf? · cs) = closing? cs :=
    findSome?_eq fun _ => closing?_eq_some_iff
  unfold leadingTag? firstTag?
  cases h : opening? cs with
  | none => simp only [hopening, hclosing, h]
  | some count => simp only [hopening, h]

/-! ### Repair by places -/

theorem mem_gapPlaces_iff {cs : List Char} {p : ℕ} :
    p ∈ gapPlaces cs ↔ 0 < p ∧ p < cs.length ∧ Gap (cs.take p) (cs.drop p) := by
  rw [gapPlaces, Finset.mem_filter, Finset.mem_range]
  refine ⟨?_, And.right⟩
  rintro ⟨hlt, hgap⟩
  refine ⟨?_, hlt, hgap⟩
  by_contra hzero
  obtain rfl : p = 0 := by omega
  exact not_gap_nil _ hgap

theorem gapPlaces_eq_empty_iff {cs : List Char} :
    gapPlaces cs = ∅ ↔ ∀ as bs, cs = as ++ bs → bs ≠ [] → isGap as bs = false := by
  rw [Finset.eq_empty_iff_forall_notMem]
  constructor
  · rintro h as bs rfl -
    exact isGap_eq_false_iff.mpr fun hgap => h as.length ((length_mem_gapPlaces as bs).mpr hgap)
  · intro h p hp
    obtain ⟨-, hlt, hgap⟩ := mem_gapPlaces_iff.mp hp
    have hne : cs.drop p ≠ [] := by simpa using hlt
    exact isGap_eq_false_iff.mp (h _ _ (List.take_append_drop p cs).symm hne) hgap

theorem gapOffsets_eq_nil_iff {before cs : List Char} :
    gapOffsets before cs = [] ↔
      ∀ as bs, cs = as ++ bs → bs ≠ [] → isGap (before ++ as) bs = false := by
  induction cs generalizing before with
  | nil => simp [gapOffsets]
  | cons c cs ih =>
    rw [forall_cuts_cons]
    simp [gapOffsets, ih]

/-- **Repair puts one space at each place of a gap**, and changes nothing else. A gap stands within the
text, where the rule says that a space is missing; a text without one is given back as it is. The
tags beside which spaces are missing are those that a search finds which tries the names of the
catalog in their order. -/
theorem repair_spaced (text : String) :
    let cs := text.toList
    (repair text).text.toList = spaced (gapPlaces cs) 0 cs ∧
      (∀ p, p ∈ gapPlaces cs ↔ 0 < p ∧ p < cs.length ∧ Gap (cs.take p) (cs.drop p)) ∧
      ((repair text).isKept = true ↔ gapPlaces cs = ∅) ∧
      ∀ ahead, leadingTag? ahead = firstTag? ahead := by
  intro cs
  have hnone : gaps text = [] ↔ gapPlaces cs = ∅ := by
    rw [gaps_eq, gapOffsets_eq_nil_iff, gapPlaces_eq_empty_iff]
    rfl
  refine ⟨by rw [toList_repair, fill_eq_spaced], fun p => mem_gapPlaces_iff, ?_,
    leadingTag?_eq_firstTag?⟩
  rw [isKept_repair, List.isEmpty_iff, hnone]

/-- In front of an opening tag, between two tags, and behind a closing tag. -/
example : gapPlaces "x<button>y</b><br>z</i>1".toList = {1, 14, 23} := by decide +kernel

end MarkupTrim.Spacing
