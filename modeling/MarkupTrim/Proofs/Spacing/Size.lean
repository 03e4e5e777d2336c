import MarkupTrim.Proofs.Spacing.Repaired

/-! # How much repair adds

A repaired text has one byte more for each gap of the text (`byteCount_fill`). A gap is paid for with
three bytes of its own: those of the tag that wants the space. An opening tag takes up three bytes or
more, unless it is cut short by the end of the text, where it may take up two; it then needs the
character in front of it as well. A closing tag takes up four and so has a byte to spare for the tag
behind it. The walk along the text therefore keeps one byte in hand once it has left the start
(`three_mul_length_tagsFrom_le`), and there is at most one gap for every three bytes
(`three_mul_length_gapOffsets_le`). -/

namespace MarkupTrim.Spacing

open Text (byteCount)

theorem length_le_byteCount (cs : List Char) : cs.length ≤ byteCount cs := by
  induction cs with
  | nil => exact Nat.le_refl 0
  | cons c cs ih =>
    have := c.utf8Size_pos
    rw [List.length_cons, Text.byteCount_cons]
    omega

/-- **A repaired text has one byte more for each gap.** -/
theorem byteCount_fill (before cs : List Char) :
    byteCount (fill isGap before cs) = byteCount cs + (gapOffsets before cs).length := by
  induction cs generalizing before with
  | nil => rfl
  | cons c cs ih =>
    rcases hg : isGap before (c :: cs)
    · rw [fill_cons_of_not_gap hg, gapOffsets, hg, Text.byteCount_cons, ih, Text.byteCount_cons]
      simp [Nat.add_assoc]
    · have hspace : ' '.utf8Size = 1 := by decide
      rw [fill_cons_of_gap hg, gapOffsets, hg, Text.byteCount_cons, Text.byteCount_cons, ih,
        Text.byteCount_cons, hspace, List.length_append]
      simp only [if_true, List.length_singleton]
      omega

/-- **The bytes of the tag at the front of a text**: four for a closing tag; for an opening tag three,
or two if the text is over behind it. -/
theorem exists_of_leadingTag? {cs : List Char} {kind : TagKind} {count : Nat}
    (h : leadingTag? cs = some (kind, count)) :
    ∃ c tail rest, cs = c :: (tail ++ rest) ∧ count = tail.length + 1 ∧
      (kind = .closing ∧ 4 ≤ byteCount (c :: tail) ∨
        kind = .opening ∧ (3 ≤ byteCount (c :: tail) ∨ 2 ≤ byteCount (c :: tail) ∧ rest = [])) := by
  unfold leadingTag? at h
  split at h
  · next n hopen =>
    obtain ⟨rfl, rfl⟩ := Prod.mk.inj (Option.some.inj h)
    obtain ⟨name, hname, stop, rest, rfl, hcount, hstop⟩ := opening?_eq_some hopen
    obtain ⟨d, ds, hd, -⟩ := exists_name_eq_cons hname
    have hlen := length_le_byteCount ('<' :: (name.toList ++ stop))
    rw [List.length_cons, List.length_append, hd, List.length_cons] at hlen
    refine ⟨'<', name.toList ++ stop, rest, by simp, by simp [hcount], Or.inr ⟨rfl, ?_⟩⟩
    rw [hd]
    rcases hstop with ⟨rfl, rfl⟩ | ⟨c, rfl, -⟩
    · exact Or.inr ⟨by omega, rfl⟩
    · rw [List.length_singleton] at hlen
      exact Or.inl (by omega)
  · obtain ⟨n, hclose, hpair⟩ := Option.map_eq_some_iff.mp h
    obtain ⟨rfl, rfl⟩ := Prod.mk.inj hpair
    obtain ⟨name, hname, rest, rfl⟩ := closing?_eq_some hclose
    rw [closing?_closingTag hname] at hclose
    obtain ⟨d, ds, hd, -⟩ := exists_name_eq_cons hname
    have hlen := length_le_byteCount (closingTag name)
    rw [closingTag, hd] at hlen
    simp only [List.length_cons, List.length_append, List.length_nil] at hlen
    refine ⟨'<', '/' :: (name.toList ++ ['>']), rest, by simp [closingTag],
      (Option.some.inj hclose).symm, Or.inl ⟨rfl, ?_⟩⟩
    rw [hd]
    omega

/-- An opening tag wants no space at the start of a text. -/
theorem ne_nil_of_gap?_opening {start stop gap : Nat} {before : List Char} {after : Option Char}
    (h : InlineTag.gap? ⟨.opening, start, stop, before.getLast?, after⟩ = some gap) :
    before ≠ [] := by
  rintro rfl
  cases h

/-- The walk from tag to tag, with one byte in hand once it has left the start of the text. -/
theorem three_mul_length_tagsFrom_le (before ahead : List Char) :
    3 * ((tagsFrom (byteCount before) before.getLast? 0 ahead).filterMap InlineTag.gap?).length ≤
      byteCount ahead + min 1 before.length := by
  induction hn : ahead.length using Nat.strongRecOn generalizing before ahead with
  | ind n ih =>
    subst hn
    rcases ahead with _ | ⟨c, cs⟩
    · simp [tagsFrom]
    rcases htag : leadingTag? (c :: cs) with _ | ⟨kind, count⟩
    · -- No tag: the character goes into the hand.
      have ih := ih cs.length (by simp) (before ++ [c]) cs rfl
      have hpos := c.utf8Size_pos
      rw [List.length_append, List.length_singleton] at ih
      rw [tagsFrom_pass htag, Text.byteCount_cons]
      omega
    · obtain ⟨d, tail, rest, he, rfl, hsize⟩ := exists_of_leadingTag? htag
      rw [he] at htag ⊢
      have hlen : rest.length < (c :: cs).length := by
        rw [he, List.length_cons, List.length_append]
        omega
      have ih := ih rest.length hlen (before ++ d :: tail) rest rfl
      have hbytes : byteCount (d :: (tail ++ rest)) = byteCount (d :: tail) + byteCount rest := by
        rw [← List.cons_append, Text.byteCount_append]
      rw [tagsFrom_tag htag before, List.filterMap_cons, hbytes]
      rw [List.length_append, List.length_cons] at ih
      rcases hgap : InlineTag.gap? _ with _ | gap
      · simp only
        omega
      · rw [List.length_cons]
        rcases hsize with ⟨rfl, hfour⟩ | ⟨rfl, hsize⟩
        · omega
        · have := List.length_pos_iff.mpr (ne_nil_of_gap?_opening hgap)
          rcases hsize with hthree | ⟨htwo, rfl⟩
          · omega
          · -- Cut short by the end of the text: its two bytes and the one in hand.
            rw [Text.byteCount_nil] at ih ⊢
            omega

/-- **At most one gap for every three bytes.** -/
theorem three_mul_length_gapOffsets_le (cs : List Char) :
    3 * (gapOffsets [] cs).length ≤ byteCount cs := by
  have hgaps : gaps (String.ofList cs) = gapOffsets [] cs := by
    rw [gaps_eq, String.toList_ofList]
  have hwalk := three_mul_length_tagsFrom_le [] cs
  rw [← hgaps, gaps, inlineTags, String.toList_ofList]
  exact hwalk

end MarkupTrim.Spacing
