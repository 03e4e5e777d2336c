import MarkupTrim.Proofs.Spacing.Repaired

/-! # Repairing again

Whether a repaired text has gaps. A new space ends the name in front of it, so two tags that stand
together, `<n<m>`, become an opening tag and another: the space in front of `<m` makes `<n` open,
and if something solid stands in front of that, a second repair puts a space there. Nothing else
comes of repair: `repair_repair_iff` says that a second repair changes the text iff the text has such
a place (`OpensTwice`). The same holds if only some gaps were filled at first, those behind a name
among them (`Fills`, `fill_isGap_fill_iff`). -/

namespace MarkupTrim.Spacing

/-- Behind a character that is not blank stands `<name`, name inline, and right behind that an
opening inline tag. -/
def OpensTwice (cs : List Char) : Prop :=
  ∃ before ahead, ∃ name ∈ inlineNames,
    cs = before ++ '<' :: (name.toList ++ ahead) ∧ EndsSolid before ∧ Opens ahead

/-- Between two parts of a text is such a place. -/
def TwiceAt (before ahead : List Char) : Prop :=
  EndsSolid before ∧ ∃ name ∈ inlineNames, ∃ rest, ahead = '<' :: (name.toList ++ rest) ∧ Opens rest

theorem opensTwice_iff (cs : List Char) :
    OpensTwice cs ↔ ∃ before ahead, cs = before ++ ahead ∧ TwiceAt before ahead := by
  constructor
  · rintro ⟨before, rest, name, hname, rfl, hsolid, hopens⟩
    exact ⟨before, _, rfl, hsolid, name, hname, rest, rfl, hopens⟩
  · rintro ⟨before, ahead, rfl, hsolid, name, hname, rest, rfl, hopens⟩
    exact ⟨before, rest, name, hname, rfl, hsolid, hopens⟩

/-- A rule that fills gaps only, and among them all that stand right behind `<name`, name inline. -/
structure Fills (rule : List Char → List Char → Bool) : Prop where
  gap : ∀ before ahead, rule before ahead = true → Gap before ahead
  name : ∀ before, ∀ name ∈ inlineNames, ∀ ahead, Opens ahead →
    rule (before ++ '<' :: name.toList) ahead = true

theorem notBeforeSpace_isGap : NotBeforeSpace isGap := fun _ _ =>
  isGap_eq_false_iff.mpr fun h => h.head_ne_space rfl

theorem not_gap_of_append_space (us vs : List Char) : ¬ Gap (us ++ [' ']) vs := by
  rintro (⟨h, -⟩ | ⟨h, -⟩)
  · rw [EndsSolid, List.getLast?_concat] at h
    exact absurd h (by decide)
  · have := h.getLast?
    rw [List.getLast?_concat] at this
    exact absurd this (by decide)

theorem endsSolid_fill {gap : List Char → List Char → Bool} {before cs : List Char} :
    EndsSolid (fill gap before cs) ↔ EndsSolid cs := by
  rw [EndsSolid, EndsSolid, getLast?_fill]

theorem closes_of_closes_fill {gap : List Char → List Char → Bool} {before cs : List Char}
    (h : Closes (fill gap before cs)) : Closes cs := by
  obtain ⟨name, hname, hs⟩ := h
  have hspace : ' ' ∉ closingTag name := by
    have := notMem_name hname (c := ' ') (by decide)
    simp [closingTag, this]
  exact ⟨name, hname, suffix_of_suffix_fill hspace hs⟩

/-- A name behind which a tag stands does not open. -/
theorem not_opens_of_opens {name : String} (hname : name ∈ inlineNames) {ahead : List Char}
    (h : Opens ahead) : ¬ Opens ('<' :: (name.toList ++ ahead)) := by
  obtain ⟨c, rest, rfl, -⟩ := h.exists_eq
  rw [← opening?_isSome_iff, opening?_eq hname (by simp), List.head?_cons]
  simp [show endsName '<' = false by decide]

theorem TwiceAt.not_gap {before ahead : List Char} (h : TwiceAt before ahead) :
    ¬ Gap before ahead := by
  obtain ⟨-, name, hname, rest, rfl, hopens⟩ := h
  rw [gap_lt_iff]
  exact fun hgap => not_opens_of_opens hname hopens hgap.2

theorem endsSolid_name {name : String} (hname : name ∈ inlineNames) (before : List Char) :
    EndsSolid (before ++ '<' :: name.toList) := by
  obtain ⟨d, ds, hd, -⟩ := exists_name_eq_cons hname
  obtain ⟨c, hc⟩ := Option.isSome_iff_exists.mp
    (show name.toList.getLast?.isSome = true by simp [hd])
  have hl := isLower_of_mem_name hname (List.mem_of_getLast? hc)
  have hb : isBlank c = false := isBlank_of_isLower hl
  rw [EndsSolid, List.getLast?_append, List.getLast?_cons, hc]
  simp [hb]

theorem fills_isGap : Fills isGap where
  gap := fun _ _ => isGap_iff.mp
  name := fun before _ hname _ hopens => isGap_iff.mpr (Or.inl ⟨endsSolid_name hname before, hopens⟩)

/-! ### Tags in a filled text -/

section Rule
variable {rule : List Char → List Char → Bool} (hrule : Fills rule)
include hrule

/-- Nothing is filled into a name. -/
theorem fill_name {name : String} (hname : name ∈ inlineNames) (before ahead : List Char) :
    fill rule (before ++ ['<']) (name.toList ++ ahead) =
      name.toList ++ fill rule (before ++ '<' :: name.toList) ahead := by
  obtain ⟨d, ds, hd, hl⟩ := exists_name_eq_cons hname
  have hslash : d ≠ '/' := ne_of_isLower hl (by decide)
  have hlt : '<' ∉ d :: ds := by rw [← hd]; exact notMem_name hname (by decide)
  have hself : fill (fun x y => rule x (y ++ ahead)) (before ++ ['<']) name.toList = name.toList := by
    refine fill_eq_self fun as bs he hbs => Bool.eq_false_iff.mpr fun ht => ?_
    rw [List.append_assoc] at ht
    exact not_gap_in_opening hslash hlt (hd ▸ he) hbs before ahead (hrule.gap _ _ ht)
  rw [fill_append, hself, List.append_assoc, List.singleton_append]

/-- Nothing is filled in front of what ends a name. -/
theorem nameEnds_fill {before cs : List Char} (h : NameEnds cs) : NameEnds (fill rule before cs) := by
  rcases cs with _ | ⟨c, cs⟩
  · exact h
  have hc : endsName c = true := by simpa [NameEnds] using h
  have hnot : rule before (c :: cs) = false := by
    refine Bool.eq_false_iff.mpr fun ht => ?_
    rcases (hrule.gap _ _ ht).head_eq with rfl | hword
    · exact absurd hc (by decide)
    · have hblank := isBlank_of_isAlphanum hword
      simp only [endsName, hblank, Bool.false_or, Bool.or_eq_true, beq_iff_eq] at hc
      rcases hc with rfl | rfl <;> exact absurd hword (by decide)
  rw [fill_cons_of_not_gap hnot]
  exact h

theorem opens_fill {cs : List Char} (h : Opens ('<' :: cs)) (before : List Char) :
    Opens ('<' :: fill rule (before ++ ['<']) cs) := by
  obtain ⟨name, hname, rest, he, hends⟩ := h
  obtain rfl := (List.cons.inj he).2
  rw [fill_name hrule hname]
  exact ⟨name, hname, _, rfl, nameEnds_fill hrule hends⟩

/-- A filled text opens where the text does, or where the text goes on with a tag right behind a
name. -/
theorem opens_of_opens_fill {before cs : List Char} (h : Opens (fill rule before cs)) :
    Opens cs ∨ ∃ name ∈ inlineNames, ∃ ahead, cs = '<' :: (name.toList ++ ahead) ∧ Opens ahead := by
  obtain ⟨name, hname, rest, he, hends⟩ := h
  have hspace : ' ' ∉ '<' :: name.toList := notMem_lt_name hname (by decide) (by decide)
  obtain ⟨ahead, rfl, rfl⟩ := exists_of_fill_eq_append hspace he
  rcases ahead with _ | ⟨c, ahead⟩
  · exact Or.inl ⟨name, hname, [], rfl, rfl⟩
  rcases hg : rule (before ++ '<' :: name.toList) (c :: ahead)
  · rw [fill_cons_of_not_gap hg] at hends
    exact Or.inl ⟨name, hname, c :: ahead, rfl, hends⟩
  · rcases hrule.gap _ _ hg with ⟨-, hopens⟩ | ⟨hcloses, -⟩
    · exact Or.inr ⟨name, hname, c :: ahead, rfl, hopens⟩
    · obtain ⟨d, ds, hd, hl⟩ := exists_name_eq_cons hname
      have hslash : d ≠ '/' := ne_of_isLower hl (by decide)
      refine absurd hcloses (not_closes_lt (notMem_name hname (by decide)) ?_)
      simpa [hd] using hslash

/-- A filled text closes where the text does. -/
theorem closes_filledFront {before ahead : List Char} (h : Closes before) :
    Closes (filledFront rule before ahead) := by
  obtain ⟨name, hname, p, rfl⟩ := h
  have hself : fill (fun x y => rule x (y ++ ahead)) p (closingTag name) = closingTag name := by
    refine fill_eq_self fun as bs he hbs => Bool.eq_false_iff.mpr fun ht => ?_
    exact not_gap_in_closingTag hname he hbs p ahead (hrule.gap _ _ ht)
  refine ⟨name, hname, ?_⟩
  unfold filledFront
  rw [fill_append, List.nil_append, hself]
  exact List.suffix_append _ _

/-- **The gaps that filling leaves**: those of the text that it did not fill, and those where a tag
stands right behind a name. -/
theorem gap_filled_iff {before ahead : List Char} (hnot : rule before ahead = false) :
    Gap (filledFront rule before ahead) (fill rule before ahead) ↔
      Gap before ahead ∨ TwiceAt before ahead := by
  have hsolid : EndsSolid (filledFront rule before ahead) ↔ EndsSolid before := endsSolid_fill
  constructor
  · rintro (⟨hs, hopens⟩ | ⟨hcloses, hword⟩)
    · rcases opens_of_opens_fill hrule hopens with hopens' | ⟨name, hname, rest, rfl, hrest⟩
      · exact Or.inl (Or.inl ⟨hsolid.mp hs, hopens'⟩)
      · exact Or.inr ⟨hsolid.mp hs, name, hname, rest, rfl, hrest⟩
    · refine Or.inl (Or.inr ⟨closes_of_closes_fill hcloses, ?_⟩)
      rcases ahead with _ | ⟨c, ahead⟩
      · exact hword
      · rw [fill_cons_of_not_gap hnot] at hword
        exact hword
  · rintro ((⟨hs, hopens⟩ | ⟨hcloses, hword⟩) | ⟨hs, name, hname, rest, rfl, hopens⟩)
    · obtain ⟨c, rest, rfl, -⟩ := hopens.exists_eq
      rw [fill_cons_of_not_gap hnot]
      exact Or.inl ⟨hsolid.mpr hs, opens_fill hrule hopens before⟩
    · obtain ⟨c, rest, rfl, hc⟩ := hword.exists_eq
      refine Or.inr ⟨closes_filledFront hrule hcloses, ?_⟩
      rw [fill_cons_of_not_gap hnot]
      exact hc
    · -- The space in front of the second tag ends the name of the first.
      obtain ⟨e, es, rfl, -⟩ := hopens.exists_eq
      refine Or.inl ⟨hsolid.mpr hs, ?_⟩
      rw [fill_cons_of_not_gap hnot, fill_name hrule hname,
        fill_cons_of_gap (hrule.name _ _ hname _ hopens)]
      exact ⟨name, hname, _, rfl, by simp [NameEnds]; decide⟩

/-- **Filling all gaps of a text that is filled in part** fills the text, iff no two tags stand
together. -/
theorem fill_isGap_fill_iff (cs : List Char) :
    fill isGap [] (fill rule [] cs) = fill isGap [] cs ↔ ¬ OpensTwice cs := by
  have hbehind : ∀ before cs, isGap (before ++ [' ']) cs = false := fun before cs =>
    isGap_eq_false_iff.mpr (not_gap_of_append_space before cs)
  have hturn : ∀ before ahead, inTurn rule isGap before ahead = true ↔
      Gap before ahead ∨ TwiceAt before ahead := by
    intro before ahead
    unfold inTurn
    rcases hg : rule before ahead
    · rw [Bool.false_or, isGap_iff, gap_filled_iff hrule hg]
    · simp [hrule.gap _ _ hg]
  have hspace : NotBeforeSpace (inTurn rule isGap) := by
    refine fun before cs => Bool.eq_false_iff.mpr fun ht => ?_
    rcases (hturn _ _).mp ht with hgap | ⟨-, name, -, rest, he, -⟩
    · exact hgap.head_ne_space rfl
    · exact absurd (List.cons.inj he).1 (by decide)
  have hfill := @fill_fill rule isGap notBeforeSpace_isGap hbehind [] cs
  rw [filledFront, fill_nil] at hfill
  rw [hfill, fill_eq_iff hspace notBeforeSpace_isGap, opensTwice_iff]
  constructor
  · rintro h ⟨as, bs, he, htwice⟩
    have hbs : bs ≠ [] := by rintro rfl; obtain ⟨-, name, -, rest, he, -⟩ := htwice; cases he
    have heq := h as bs he hbs
    rw [List.nil_append, (hturn as bs).mpr (Or.inr htwice)] at heq
    exact htwice.not_gap (isGap_iff.mp heq.symm)
  · intro h as bs he _
    rw [List.nil_append, Bool.eq_iff_iff, hturn, isGap_iff]
    exact or_iff_left fun htwice => h ⟨as, bs, he, htwice⟩

end Rule

/-! ### Repairing twice -/

/-- **The gaps of a repaired text** are where two tags stand together in the text. -/
theorem gap_fill_iff (cs : List Char) :
    (∃ us vs, fill isGap [] cs = us ++ vs ∧ Gap us vs) ↔ OpensTwice cs := by
  rw [opensTwice_iff]
  constructor
  · rintro ⟨us, vs, h, hgap⟩
    obtain ⟨as, bs, rfl, ⟨rfl, rfl⟩ | ⟨c, ds, rfl, rfl, -⟩⟩ := cut_fill h
    · rcases bs with _ | ⟨c, bs⟩
      · exact absurd hgap (not_gap_of_nil_ahead _)
      rcases hg : isGap as (c :: bs)
      · rcases (gap_filled_iff fills_isGap hg).mp hgap with hgap | htwice
        · exact absurd hgap (isGap_eq_false_iff.mp hg)
        · exact ⟨as, c :: bs, rfl, htwice⟩
      · rw [List.nil_append, fill_cons_of_gap hg] at hgap
        exact absurd rfl hgap.head_ne_space
    · exact absurd hgap (not_gap_of_append_space _ _)
  · rintro ⟨as, bs, rfl, htwice⟩
    have hnot := isGap_eq_false_iff.mpr htwice.not_gap
    exact ⟨_, _, fill_append _ _ _, (gap_filled_iff fills_isGap hnot).mpr (Or.inr htwice)⟩

/-- **Repairing twice is repairing once iff no two tags stand together** behind something solid. -/
theorem repair_repair_iff (text : String) :
    (repair (repair text).text).text = (repair text).text ↔ ¬ OpensTwice text.toList := by
  have hgaps := forall_isGap_eq_false_iff (fun _ => True) (fill isGap [] text.toList)
  simp only [true_imp_iff, true_and] at hgaps
  rw [← String.toList_inj, toList_repair, toList_repair, fill_eq_self_iff notBeforeSpace_isGap,
    ← gap_fill_iff]
  exact hgaps

/-- A text that a second repair changes. -/
theorem repair_repair_ne :
    (repair "x<b<i>").text = "x<b <i>" ∧ (repair "x<b <i>").text = "x <b <i>" ∧
      (repair (repair "x<b<i>").text).text ≠ (repair "x<b<i>").text := by
  decide +kernel

end MarkupTrim.Spacing
