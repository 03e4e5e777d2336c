import MarkupTrim.Proofs.Spacing.Fill
import MarkupTrim.Proofs.Spacing.Rule

/-! # Repair fills the gaps

`repair` searches a text for tags, one after another, takes from each the byte offset where it wants
a space, and cuts the text there. What comes out is the text with one space in each gap of the rule
(`toList_repair`): no tag hides another, since none has a second `<`, and the offsets are those of
the gaps in the order of the text (`gaps_eq`).

The search is followed from tag to tag. A closing tag wants its space at its end, where the walk
along the text comes to it later; so the induction needs that no closing tag reaches over the place
where the walk stands (`Whole`). -/

namespace MarkupTrim.Spacing

open Text (byteCount)

/-- The byte offsets of the gaps of a text behind `before`. -/
def gapOffsets (before : List Char) : List Char → List Nat
  | [] => []
  | c :: cs =>
    (if isGap before (c :: cs) then [byteCount before] else []) ++ gapOffsets (before ++ [c]) cs

/-- Every closing tag that ends behind the cut starts there too. -/
def Whole (before ahead : List Char) : Prop :=
  ∀ v w, ahead = v ++ w → v ≠ [] → Closes (before ++ v) → Closes v

theorem gapOffsets_append {before as bs : List Char}
    (h : ∀ u v, as = u ++ v → v ≠ [] → ¬ Gap (before ++ u) (v ++ bs)) :
    gapOffsets before (as ++ bs) = gapOffsets (before ++ as) bs := by
  induction as generalizing before with
  | nil => simp
  | cons a as ih =>
    have ha : isGap before (a :: (as ++ bs)) = false :=
      isGap_eq_false_iff.mpr (by simpa using h [] (a :: as) rfl (by simp))
    rw [List.cons_append, gapOffsets, ha, ih]
    · simp
    · rintro u v rfl hv
      simpa using h (a :: u) v rfl hv

/-- The search goes on behind the characters that it skips. -/
theorem tagsFrom_skip (before as bs : List Char) :
    tagsFrom (byteCount before) before.getLast? as.length (as ++ bs) =
      tagsFrom (byteCount (before ++ as)) (before ++ as).getLast? 0 bs := by
  induction as generalizing before with
  | nil => simp
  | cons a as ih =>
    have h := ih (before ++ [a])
    rw [List.getLast?_concat, Text.byteCount_append] at h
    rw [List.length_cons, List.cons_append, tagsFrom, show before ++ a :: as = before ++ [a] ++ as by
      simp, ← h]
    simp

/-- Where no tag starts, the search goes on at the next place. -/
theorem tagsFrom_pass {c : Char} {cs : List Char} (h : leadingTag? (c :: cs) = none)
    (before : List Char) :
    tagsFrom (byteCount before) before.getLast? 0 (c :: cs) =
      tagsFrom (byteCount (before ++ [c])) (before ++ [c]).getLast? 0 cs := by
  rw [tagsFrom, h, List.getLast?_concat, Text.byteCount_append]
  rfl

theorem tagsFrom_tag {kind : TagKind} {c : Char} {tail rest : List Char}
    (h : leadingTag? (c :: (tail ++ rest)) = some (kind, tail.length + 1)) (before : List Char) :
    tagsFrom (byteCount before) before.getLast? 0 (c :: (tail ++ rest)) =
      { kind, start := byteCount before, stop := byteCount (before ++ c :: tail),
        before := before.getLast?, after := rest.head? } ::
        tagsFrom (byteCount (before ++ c :: tail)) (before ++ c :: tail).getLast? 0 rest := by
  have hskip := tagsFrom_skip (before ++ [c]) tail rest
  rw [List.getLast?_concat, Text.byteCount_append, List.append_assoc, List.singleton_append]
    at hskip
  rw [tagsFrom, h]
  simp only [Nat.add_sub_cancel]
  rw [← hskip]
  simp

/-! ### Within a tag and behind it -/

/-- The `>` of a closing tag is its last character only. -/
theorem gt_notMem_of_closingTag_eq {name : String} (hname : name ∈ inlineNames) {u v : List Char}
    (h : closingTag name = u ++ v) (hv : v ≠ []) : '>' ∉ u := by
  have hgt : '>' ∉ '<' :: '/' :: name.toList := by
    have := notMem_name hname (c := '>') (by decide)
    simp [this]
  obtain ⟨w, d, rfl⟩ := (List.eq_nil_or_concat v).resolve_left hv
  have hsplit : ('<' :: '/' :: name.toList) ++ ['>'] = (u ++ w) ++ [d] := by
    simpa [closingTag] using h
  intro hm
  rw [(List.append_inj' hsplit rfl).1] at hgt
  exact hgt (List.mem_append_left _ hm)

/-- Behind its `<` there is no gap within a tag. -/
theorem not_gap_in_tag {tail as bs : List Char} (hlt : '<' ∉ tail) (hgt : '>' ∉ tail)
    (h : tail ++ ['>'] = as ++ bs) (hbs : bs ≠ []) (before rest : List Char) :
    ¬ Gap (before ++ '<' :: as) (bs ++ rest) := by
  obtain ⟨w, d, rfl⟩ := (List.eq_nil_or_concat bs).resolve_left hbs
  obtain ⟨rfl, hd⟩ : tail = as ++ w ∧ ['>'] = [d] := List.append_inj' (by simpa using h) rfl
  obtain rfl := (List.cons.inj hd).1
  rw [List.mem_append, not_or] at hlt hgt
  rintro (⟨-, hopens⟩ | ⟨hcloses, -⟩)
  · obtain ⟨c, r, he, -⟩ := hopens.exists_eq
    rcases w with _ | ⟨e, w⟩
    · exact absurd (List.cons.inj he).1 (by decide)
    · exact hlt.2 (by rw [(List.cons.inj he).1]; exact List.mem_cons_self)
  · obtain ⟨name, -, rfl⟩ := (closes_lt_iff hlt.1).mp hcloses
    exact hgt.1 (by simp)

/-- Within a closing tag there is no gap. -/
theorem not_gap_in_closingTag {name : String} (hname : name ∈ inlineNames) {u v : List Char}
    (h : closingTag name = u ++ v) (hv : v ≠ []) (before rest : List Char) :
    ¬ Gap (before ++ u) (v ++ rest) := by
  rcases u with _ | ⟨c, u⟩
  · rw [List.nil_append] at h
    subst h
    rw [closingTag, List.cons_append, List.cons_append, gap_lt_iff]
    rintro ⟨-, hopens⟩
    obtain ⟨c, r, he, hl⟩ := hopens.exists_eq
    obtain ⟨rfl, -⟩ := List.cons.inj (List.cons.inj he).2
    exact absurd hl (by decide)
  · obtain ⟨rfl, htail⟩ := List.cons.inj h
    have hlt := notMem_slash_name hname (c := '<') (by decide) (by decide)
    have hgt := notMem_slash_name hname (c := '>') (by decide) (by decide)
    exact not_gap_in_tag hlt hgt htail hv before rest

/-- Within an opening tag there is no gap. -/
theorem not_gap_in_opening {c : Char} {tail u v : List Char} (hc : c ≠ '/') (hlt : '<' ∉ c :: tail)
    (h : c :: tail = u ++ v) (hv : v ≠ []) (before rest : List Char) :
    ¬ Gap (before ++ '<' :: u) (v ++ rest) := by
  rintro (⟨-, hopens⟩ | ⟨hcloses, -⟩)
  · obtain ⟨d, v, rfl⟩ := List.exists_cons_of_ne_nil hv
    obtain ⟨e, r, he, -⟩ := hopens.exists_eq
    obtain ⟨rfl, -⟩ := List.cons.inj he
    exact hlt (by rw [h]; simp)
  · refine not_closes_lt (fun hm => hlt (by rw [h]; exact List.mem_append_left _ hm)) ?_ hcloses
    rcases u with _ | ⟨d, u⟩
    · simp
    · obtain ⟨rfl, -⟩ := List.cons.inj h
      simpa using hc

/-- Whether a part closes can hang on what is in front only where a closing tag is cut in two. -/
theorem closes_cut {front inner : List Char} (hne : inner ≠ [])
    (h : ¬ (Closes (front ++ inner) ↔ Closes inner)) :
    ∃ name ∈ inlineNames, ∃ before u w, front = before ++ '<' :: u ∧ inner = w ++ ['>'] ∧
      '/' :: name.toList = u ++ w := by
  have hboth : Closes (front ++ inner) ∧ ¬ Closes inner := by
    by_contra hnot
    exact h ⟨fun hc => not_not.mp fun hi => hnot ⟨hc, hi⟩, fun hc => hc.append_left front⟩
  obtain ⟨⟨name, hname, hs⟩, hnot⟩ := hboth
  rcases List.suffix_or_suffix_of_suffix hs (List.suffix_append front inner) with hsv | ⟨u, hu⟩
  · exact absurd ⟨name, hname, hsv⟩ hnot
  · rcases u with _ | ⟨c, u⟩
    · exact absurd ⟨name, hname, by rw [← hu]; exact List.suffix_refl _⟩ hnot
    · obtain ⟨before, hbefore⟩ := hs
      rw [← hu, ← List.append_assoc] at hbefore
      obtain ⟨rfl, htag⟩ := List.cons.inj hu
      obtain ⟨w, d, rfl⟩ := (List.eq_nil_or_concat inner).resolve_left hne
      have hsplit : (u ++ w) ++ [d] = ('/' :: name.toList) ++ ['>'] := by simpa using htag
      obtain ⟨hname', hd⟩ := List.append_inj' hsplit rfl
      obtain rfl := (List.cons.inj hd).1
      exact ⟨name, hname, before, u, w, (List.append_cancel_right hbefore).symm,
        List.concat_eq_append, hname'.symm⟩

theorem whole_of {before ahead : List Char}
    (h : ∀ name ∈ inlineNames, ∀ u v, closingTag name = u ++ v → u ≠ [] → v ≠ [] → ¬ u <:+ before) :
    Whole before ahead := by
  rintro v w rfl hv hcloses
  by_contra hnot
  obtain ⟨name, hname, x, u, y, rfl, rfl, he⟩ := closes_cut hv fun hiff => hnot (hiff.mp hcloses)
  refine h name hname ('<' :: u) (y ++ ['>']) ?_ (by simp) hv (List.suffix_append x _)
  rw [closingTag, ← List.cons_append, he, List.cons_append, List.append_assoc]

theorem whole_nil (ahead : List Char) : Whole [] ahead :=
  whole_of fun _ _ _ _ _ hu _ hs => hu (List.suffix_nil.mp hs)

theorem whole_closingTag {name : String} (hname : name ∈ inlineNames)
    (before ahead : List Char) : Whole (before ++ closingTag name) ahead := by
  refine whole_of fun name' hname' u v h hu hv hs => ?_
  -- `u` ends in the `>` of the tag in front, but has none.
  have hcloses : Closes (before ++ closingTag name) := ⟨name, hname, List.suffix_append _ _⟩
  have hlast := hcloses.getLast?
  obtain ⟨x, hx⟩ := hs
  rw [← hx, List.getLast?_append_of_ne_nil _ hu] at hlast
  exact gt_notMem_of_closingTag_eq hname' h hv (List.mem_of_getLast? hlast)

theorem whole_opening {c : Char} {tail : List Char} (hc : c ≠ '/') (hlt : '<' ∉ c :: tail)
    (before ahead : List Char) : Whole (before ++ '<' :: c :: tail) ahead := by
  refine whole_of fun name hname u v h hu hv hs => ?_
  -- `u` starts with the last `<` in front, so with the opening tag.
  obtain ⟨d, u, rfl⟩ := List.exists_cons_of_ne_nil hu
  obtain ⟨rfl, htail⟩ := List.cons.inj h
  obtain ⟨x, hx⟩ := hs
  have hult : '<' ∉ u := fun hm =>
    lt_notMem_closingTag hname (by rw [htail]; exact List.mem_append_left _ hm)
  rw [eq_of_append_lt hx hult hlt] at htail
  exact hc (List.cons.inj htail).1.symm

/-! ### The search finds the gaps -/

/-- The offsets that the search wants from a place on, with the one that a closing tag right in front
wants at the place itself. -/
def wanted (before ahead : List Char) : List Nat :=
  (if Closes before ∧ StartsWord ahead then [byteCount before] else []) ++
    (tagsFrom (byteCount before) before.getLast? 0 ahead).filterMap InlineTag.gap?

theorem wanted_nil (before : List Char) : wanted before [] = [] := by
  have hword : ¬ StartsWord [] := fun h => by cases h
  unfold wanted
  rw [if_neg fun h => hword h.2]; rfl

theorem wanted_of_not_closes {before : List Char} (h : ¬ Closes before) (ahead : List Char) :
    wanted before ahead =
      (tagsFrom (byteCount before) before.getLast? 0 ahead).filterMap InlineTag.gap? := by
  unfold wanted
  rw [if_neg fun hc => h hc.1, List.nil_append]

theorem wanted_lt (before cs : List Char) :
    wanted before ('<' :: cs) =
      (tagsFrom (byteCount before) before.getLast? 0 ('<' :: cs)).filterMap InlineTag.gap? := by
  unfold wanted
  rw [if_neg fun h => not_startsWord_lt cs h.2, List.nil_append]

/-- Where no tag starts, a space is wanted behind a closing tag only. -/
theorem wanted_cons {before cs : List Char} {c : Char} (hnone : leadingTag? (c :: cs) = none)
    (hopens : ¬ Opens (c :: cs)) (hcloses : ¬ Closes (before ++ [c])) :
    wanted before (c :: cs) =
      (if isGap before (c :: cs) then [byteCount before] else []) ++ wanted (before ++ [c]) cs := by
  have hgap : Gap before (c :: cs) ↔ Closes before ∧ StartsWord (c :: cs) := by
    simp [Gap, hopens]
  rw [wanted_of_not_closes hcloses, wanted, tagsFrom_pass hnone]
  simp [isGap, hgap]

/-- A closing tag wants its space at its end, where the walk goes on. -/
theorem wanted_closingTag {name : String} (hname : name ∈ inlineNames) {rest : List Char}
    (htag : leadingTag? (closingTag name ++ rest) = some (.closing, (closingTag name).length))
    (before : List Char) :
    wanted before (closingTag name ++ rest) = wanted (before ++ closingTag name) rest := by
  have hcloses : Closes (before ++ closingTag name) := ⟨name, hname, List.suffix_append _ _⟩
  have hlen : (closingTag name).length = ('/' :: (name.toList ++ ['>'])).length + 1 := rfl
  rw [hlen, closingTag, List.cons_append] at htag
  have hfound := tagsFrom_tag htag before
  rw [closingTag, List.cons_append, wanted_lt, hfound, List.filterMap_cons]
  unfold wanted
  rw [← closingTag]
  by_cases hword : StartsWord rest
  · have hafter : rest.head?.any Char.isAlphanum = true := hword
    simp [InlineTag.gap?, hcloses, hafter, hword]
  · have hafter : ¬ rest.head?.any Char.isAlphanum = true := hword
    simp [InlineTag.gap?, hafter, hword]

/-- An opening tag wants its space at its front, where the walk stands. -/
theorem wanted_opening {d : Char} {tail rest : List Char} (hd : d ≠ '/') (hlt : '<' ∉ d :: tail)
    (htag : leadingTag? ('<' :: d :: (tail ++ rest)) = some (.opening, tail.length + 2))
    (before : List Char) :
    wanted before ('<' :: d :: (tail ++ rest)) =
      (if EndsSolid before then [byteCount before] else []) ++
        wanted (before ++ '<' :: d :: tail) rest := by
  have hcloses : ¬ Closes (before ++ '<' :: d :: tail) := not_closes_lt hlt (by simpa using hd)
  have htag : leadingTag? ('<' :: (d :: tail ++ rest)) =
      some (.opening, (d :: tail).length + 1) := htag
  have hfound := tagsFrom_tag htag before
  rw [List.cons_append] at hfound
  rw [wanted_lt, hfound, List.filterMap_cons, wanted_of_not_closes hcloses]
  by_cases hsolid : EndsSolid before
  · have hbefore : (before.getLast?.any fun c => !isBlank c) = true := hsolid
    simp [InlineTag.gap?, hsolid, hbefore]
  · have hbefore : ¬ (before.getLast?.any fun c => !isBlank c) = true := hsolid
    simp [InlineTag.gap?, hsolid, hbefore]

theorem gapOffsets_opening {d : Char} {tail rest : List Char} (hd : d ≠ '/')
    (hlt : '<' ∉ d :: tail) (hopens : Opens ('<' :: d :: (tail ++ rest))) (before : List Char) :
    gapOffsets before ('<' :: d :: (tail ++ rest)) =
      (if EndsSolid before then [byteCount before] else []) ++
        gapOffsets (before ++ '<' :: d :: tail) rest := by
  have hgap : Gap before ('<' :: d :: (tail ++ rest)) ↔ EndsSolid before := by
    simp [gap_lt_iff, hopens]
  have hin : gapOffsets (before ++ ['<']) (d :: tail ++ rest) =
      gapOffsets (before ++ ['<'] ++ d :: tail) rest :=
    gapOffsets_append fun u v h hv => by
      simpa using not_gap_in_opening hd hlt h hv before rest
  rw [List.cons_append, List.append_assoc, List.singleton_append] at hin
  rw [gapOffsets, hin]
  simp [isGap, hgap]

/-- Where no tag starts, no closing tag reaches over the next place. -/
theorem Whole.cons {before cs : List Char} {c : Char} (hw : Whole before (c :: cs))
    (hclosing : ∀ name ∈ inlineNames, ¬ closingTag name <+: c :: cs) :
    Whole (before ++ [c]) cs := by
  rintro v w rfl hv h
  rw [List.append_assoc, List.singleton_append] at h
  obtain ⟨name, hname, hs⟩ := hw (c :: v) w rfl (by simp) h
  rcases List.suffix_cons_iff.mp hs with hs | hs
  · exact absurd ⟨w, by rw [hs]; rfl⟩ (hclosing name hname)
  · exact ⟨name, hname, hs⟩

/-- **The search wants spaces in the gaps**, from every place on that no closing tag reaches over. -/
theorem wanted_eq {before ahead : List Char} (hw : Whole before ahead) :
    wanted before ahead = gapOffsets before ahead := by
  induction hn : ahead.length using Nat.strongRecOn generalizing before ahead with
  | ind n ih =>
    subst hn
    rcases ahead with _ | ⟨c, cs⟩
    · rw [wanted_nil]; rfl
    rcases leadingTag?_cases (c :: cs) with ⟨hnone, hopens, hclosing⟩ |
      ⟨name, hname, rest, he, htag⟩ | ⟨d, tail, rest, he, hopens, hd, hlt, htag⟩
    · have hcloses : ¬ Closes (before ++ [c]) := fun h =>
        not_closes_singleton c (hw [c] cs rfl (by simp) h)
      rw [wanted_cons hnone hopens hcloses, gapOffsets,
        ih cs.length (by simp) (hw.cons hclosing) rfl]
    · have hlen : rest.length < (c :: cs).length := by rw [he]; simp [closingTag]; omega
      rw [he] at htag ⊢
      rw [wanted_closingTag hname htag,
        gapOffsets_append fun u v h hv => not_gap_in_closingTag hname h hv before rest,
        ih rest.length hlen (whole_closingTag hname before rest) rfl]
    · have hlen : rest.length < (c :: cs).length := by rw [he]; simp; omega
      rw [he] at htag hopens ⊢
      rw [wanted_opening hd hlt htag, gapOffsets_opening hd hlt hopens,
        ih rest.length hlen (whole_opening hd hlt before rest) rfl]

/-- **Repair finds the gaps of the rule**, in the order of the text. -/
theorem gaps_eq (text : String) : gaps text = gapOffsets [] text.toList := by
  have h := wanted_eq (whole_nil text.toList)
  rw [wanted_of_not_closes not_closes_nil] at h
  exact h

/-! ### Cutting and joining -/

theorem cut_ne_nil (text : String) (copied : Nat) (offsets : List Nat) :
    cut text copied offsets ≠ [] := by
  cases offsets <;> simp [cut]

/-- The pieces of a text cut at its gaps, from `before` on, joined by spaces. -/
theorem toList_intercalate_cut (before inner ahead : List Char) :
    (" ".intercalate (cut (String.ofList (before ++ (inner ++ ahead))) (byteCount before)
        (gapOffsets (before ++ inner) ahead))).toList =
      inner ++ fill isGap (before ++ inner) ahead := by
  induction ahead generalizing before inner with
  | nil =>
    have hslice := Text.slice_append before inner []
    rw [gapOffsets, cut, Text.utf8ByteSize_ofList, List.append_nil, Text.byteCount_append,
      String.intercalate_singleton]
    rw [List.append_nil] at hslice
    rw [hslice, String.toList_ofList, fill_nil, List.append_nil]
  | cons c cs ih =>
    rcases hg : isGap (before ++ inner) (c :: cs)
    · have ih := ih before (inner ++ [c])
      rw [gapOffsets, fill_cons_of_not_gap hg, hg]
      simpa using ih
    · have ih := ih (before ++ inner) [c]
      have hslice := Text.slice_append before inner (c :: cs)
      rw [gapOffsets, fill_cons_of_gap hg, hg, if_pos rfl, List.singleton_append, cut,
        Text.byteCount_append, hslice,
        String.intercalate_cons_of_ne_nil (cut_ne_nil _ _ _)]
      rw [Text.byteCount_append, List.append_assoc, List.singleton_append] at ih
      rw [String.toList_append, String.toList_append, ih, String.toList_ofList]
      simp

/-- **Repair puts one space into each gap** and changes nothing else. -/
theorem toList_repair (text : String) :
    (repair text).text.toList = fill isGap [] text.toList := by
  have h := toList_intercalate_cut [] [] text.toList
  simp only [List.nil_append, String.ofList_toList] at h
  unfold repair
  rw [gaps_eq]
  split
  · next hnil =>
    have hslice := Text.slice_append [] text.toList []
    rw [List.append_nil, List.nil_append, String.ofList_toList, Text.byteCount_nil, Nat.zero_add,
      ← Text.utf8ByteSize_ofList, String.ofList_toList] at hslice
    rw [hnil, cut, String.intercalate_singleton, Text.byteCount_nil, hslice] at h
    exact h
  · exact h

end MarkupTrim.Spacing
