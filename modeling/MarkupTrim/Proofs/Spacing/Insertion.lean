import MarkupTrim.Proofs.Spacing.Exact
import MarkupTrim.Proofs.Spacing.Size

/-! # The insertion of spaces

Spaces are put into a text in one loop over its tags, in the order in which a search takes them
(`Search`, `search_iff`). The loop copies the text up to each offset that a tag wants and puts the
space behind it. How far it has copied is all it knows of the text; that it has copied nothing is
how it tells in the end that no tag wanted a space (`Insertion`). Copying is refused unless it goes
forward from one place between characters to another (`Text.slice?`).

It is never refused. The offsets that the tags want are those of the gaps of the rule in the order
of the text, so they rise, from behind the start of the text on (`ascends_gaps`); a loop along
rising offsets goes through (`Insertion.exists_run?_eq`) and leaves the repaired text
(`exists_finish?_eq`). -/

namespace MarkupTrim

open Text (byteCount)

/-- The stretch of a text from byte offset `start` up to `stop`, if both are between characters and
in this order. -/
def Text.slice? (text : String) (start stop : ℕ) : Option String :=
  if start ≤ stop ∧ String.Pos.Raw.IsValid text ⟨start⟩ ∧ String.Pos.Raw.IsValid text ⟨stop⟩ then
    some (Text.slice text start stop)
  else none

theorem Text.slice?_eq_some {text : String} {start stop : ℕ} (hle : start ≤ stop)
    (hstart : String.Pos.Raw.IsValid text ⟨start⟩) (hstop : String.Pos.Raw.IsValid text ⟨stop⟩) :
    Text.slice? text start stop = some (Text.slice text start stop) :=
  if_pos ⟨hle, hstart, hstop⟩

namespace Spacing

/-! ### The order of the search -/

/-- **The tags that a search takes** from a place on, with `before` in front of it and `ahead`
behind. Where no tag starts, the search goes on at the next place; where one starts, the search
takes the one that the first name of the catalog that fits gives, and goes on behind it. -/
inductive Search : List Char → List Char → List InlineTag → Prop
  | atEnd (before : List Char) : Search before [] []
  | pass {before cs : List Char} {c : Char} {tags : List InlineTag} : firstTag? (c :: cs) = none →
      Search (before ++ [c]) cs tags → Search before (c :: cs) tags
  | take {before tag rest : List Char} {kind : TagKind} {tags : List InlineTag} :
      firstTag? (tag ++ rest) = some (kind, tag.length) → Search (before ++ tag) rest tags →
      Search before (tag ++ rest)
        ({ kind, start := byteCount before, stop := byteCount (before ++ tag),
           before := before.getLast?, after := rest.head? } :: tags)

theorem Search.tagsFrom_eq {before ahead : List Char} {tags : List InlineTag}
    (h : Search before ahead tags) :
    tagsFrom (byteCount before) before.getLast? 0 ahead = tags := by
  induction h with
  | atEnd before => rfl
  | pass hnone _ ih =>
    rw [← leadingTag?_eq_firstTag?] at hnone
    rw [tagsFrom_pass hnone, ih]
  | take htag _ ih =>
    rw [← leadingTag?_eq_firstTag?] at htag
    obtain ⟨-, tail, -, -, hlen, -⟩ := exists_of_leadingTag? htag
    obtain ⟨c, tail, rfl⟩ := List.exists_cons_of_length_eq_add_one hlen
    rw [List.cons_append, tagsFrom_tag htag, ih]

theorem exists_search (before ahead : List Char) : ∃ tags, Search before ahead tags := by
  induction hn : ahead.length using Nat.strongRecOn generalizing before ahead with
  | ind n ih =>
    subst hn
    rcases ahead with _ | ⟨c, cs⟩
    · exact ⟨[], .atEnd before⟩
    rcases htag : leadingTag? (c :: cs) with _ | ⟨kind, count⟩
    · obtain ⟨tags, htags⟩ := ih cs.length (by simp) (before ++ [c]) cs rfl
      exact ⟨tags, .pass (leadingTag?_eq_firstTag? _ ▸ htag) htags⟩
    · -- Behind the tag less is ahead, by all of its characters.
      obtain ⟨d, tail, rest, he, rfl, -⟩ := exists_of_leadingTag? htag
      have hlen : rest.length < (c :: cs).length := by
        rw [he, List.length_cons, List.length_append]
        omega
      obtain ⟨tags, htags⟩ := ih rest.length hlen (before ++ d :: tail) rest rfl
      rw [he, ← List.cons_append, leadingTag?_eq_firstTag?] at htag
      rw [he, ← List.cons_append]
      exact ⟨_, .take htag htags⟩

/-- **A search takes the inline tags of a text**, and no other search is possible. -/
theorem search_iff {text : String} {tags : List InlineTag} :
    Search [] text.toList tags ↔ tags = inlineTags text := by
  constructor
  · intro h
    exact h.tagsFrom_eq.symm
  · rintro rfl
    obtain ⟨tags, htags⟩ := exists_search [] text.toList
    have heq : inlineTags text = tags := htags.tagsFrom_eq
    rw [heq]
    exact htags

/-! ### The offsets of the gaps -/

theorem exists_of_mem_gapOffsets {before cs : List Char} {offset : ℕ}
    (h : offset ∈ gapOffsets before cs) :
    ∃ as bs, cs = as ++ bs ∧ Gap (before ++ as) bs ∧ offset = byteCount (before ++ as) := by
  induction cs generalizing before with
  | nil => cases h
  | cons c cs ih =>
    rw [gapOffsets, List.mem_append] at h
    rcases h with hhere | hlater
    · split_ifs at hhere with hgap
      · refine ⟨[], c :: cs, rfl, ?_, ?_⟩
        · simpa using isGap_iff.mp hgap
        · simpa using hhere
      · cases hhere
    · obtain ⟨as, bs, rfl, hgap, rfl⟩ := ih hlater
      exact ⟨c :: as, bs, rfl, by simpa using hgap, by simp⟩

theorem pairwise_gapOffsets (before cs : List Char) :
    (gapOffsets before cs).Pairwise (· < ·) := by
  induction cs generalizing before with
  | nil => exact .nil
  | cons c cs ih =>
    rw [gapOffsets, List.pairwise_append]
    refine ⟨?_, ih _, fun here hhere later hlater => ?_⟩
    · split_ifs <;> simp
    · -- The later offset is behind `c`, this one in front of it.
      obtain ⟨as, bs, -, -, rfl⟩ := exists_of_mem_gapOffsets hlater
      have hpos := c.utf8Size_pos
      split_ifs at hhere
      · obtain rfl := List.mem_singleton.mp hhere
        simp only [Text.byteCount_append, Text.byteCount_cons]
        omega
      · cases hhere

/-- **A gap is within the text**, between two of its characters. -/
theorem bounds_of_mem_gaps {text : String} {gap : ℕ} (h : gap ∈ gaps text) :
    0 < gap ∧ gap < text.utf8ByteSize ∧ String.Pos.Raw.IsValid text ⟨gap⟩ := by
  rw [gaps_eq] at h
  obtain ⟨as, bs, he, hgap, rfl⟩ := exists_of_mem_gapOffsets h
  rw [List.nil_append] at hgap ⊢
  have hfront : as ≠ [] := by
    rintro rfl
    exact not_gap_nil _ hgap
  have hback : bs ≠ [] := by
    rintro rfl
    exact not_gap_of_nil_ahead _ hgap
  obtain rfl : text = String.ofList (as ++ bs) := by rw [← he, String.ofList_toList]
  have hpos := Text.byteCount_pos hback
  rw [Text.utf8ByteSize_ofList, Text.byteCount_append]
  exact ⟨Text.byteCount_pos hfront, by omega, Text.isValid_byteCount as bs⟩

/-- Byte offsets that rise along a text, each between characters. -/
structure Ascends (text : String) (offsets : List ℕ) : Prop where
  lt : offsets.Pairwise (· < ·)
  valid : ∀ offset ∈ offsets, String.Pos.Raw.IsValid text ⟨offset⟩

/-- **The offsets of the gaps rise**, from behind the start of the text on. -/
theorem ascends_gaps (text : String) : Ascends text (0 :: gaps text) where
  lt := by
    refine List.pairwise_cons.mpr ⟨fun gap h => (bounds_of_mem_gaps h).1, ?_⟩
    rw [gaps_eq]
    exact pairwise_gapOffsets [] text.toList
  valid := by
    intro offset h
    rcases List.mem_cons.mp h with rfl | h
    · exact String.Pos.Raw.isValid_zero
    · exact (bounds_of_mem_gaps h).2.2

theorem Ascends.sublist {text : String} {few many : List ℕ} (h : Ascends text many)
    (hsub : few.Sublist many) : Ascends text few :=
  ⟨h.lt.sublist hsub, fun offset hmem => h.valid offset (hsub.mem hmem)⟩

theorem Ascends.head_lt {text : String} {copied gap : ℕ} {rest : List ℕ}
    (h : Ascends text (copied :: gap :: rest)) : copied < gap :=
  (List.pairwise_cons.mp h.lt).1 gap List.mem_cons_self

theorem Ascends.slice? {text : String} {copied gap : ℕ} {rest : List ℕ}
    (h : Ascends text (copied :: gap :: rest)) :
    Text.slice? text copied gap = some (Text.slice text copied gap) :=
  Text.slice?_eq_some (Nat.le_of_lt h.head_lt) (h.valid copied (by simp)) (h.valid gap (by simp))

/-! ### The loop -/

/-- How far the insertion of spaces has come: the text that is built, and the byte offset up to
which the text has been copied. -/
structure Insertion where
  built : String
  copied : ℕ

namespace Insertion

/-- Nothing has been copied. -/
def start : Insertion := ⟨"", 0⟩

/-- **One iteration.** If the tag wants a space, the text is copied up to there and the space put
behind it, unless copying is refused. -/
def step? (text : String) (now : Insertion) (tag : InlineTag) : Option Insertion :=
  match tag.gap? with
  | none => some now
  | some gap =>
    (Text.slice? text now.copied gap).map fun piece => ⟨now.built ++ piece ++ " ", gap⟩

/-- The iterations for some tags, unless one is refused. -/
def run? (text : String) (now : Insertion) (tags : List InlineTag) : Option Insertion :=
  tags.foldlM (step? text) now

/-- What comes out behind the loop: the text itself if nothing has been copied, else what is built
with the rest of the text, unless copying the rest is refused. -/
def finish? (text : String) (now : Insertion) : Option Edit :=
  if now.copied = 0 then some (.kept text)
  else (Text.slice? text now.copied text.utf8ByteSize).map fun rest => .built (now.built ++ rest)

variable {text : String}

theorem step?_of_none {tag : InlineTag} (h : tag.gap? = none) (now : Insertion) :
    step? text now tag = some now := by
  rw [step?, h]

theorem step?_of_some {tag : InlineTag} {gap : ℕ} {rest : List ℕ} {now : Insertion}
    (h : tag.gap? = some gap) (hrises : Ascends text (now.copied :: gap :: rest)) :
    step? text now tag = some ⟨now.built ++ Text.slice text now.copied gap ++ " ", gap⟩ := by
  simp only [step?, h, hrises.slice?, Option.map_some]

/-- **A loop along rising offsets goes through.** It has copied up to the last of them then, and
built the pieces of the text with a space behind each. -/
theorem exists_run?_eq {tags : List InlineTag} (now : Insertion)
    (h : Ascends text (now.copied :: tags.filterMap InlineTag.gap?)) :
    ∃ last, run? text now tags = some last ∧
      last.copied = (tags.filterMap InlineTag.gap?).getLastD now.copied ∧
      last.built ++ Text.slice text last.copied text.utf8ByteSize =
        now.built ++ " ".intercalate (cut text now.copied (tags.filterMap InlineTag.gap?)) := by
  induction tags generalizing now with
  | nil => exact ⟨now, rfl, rfl, by rw [List.filterMap_nil, cut, String.intercalate_singleton]⟩
  | cons tag tags ih =>
    rcases hgap : tag.gap? with _ | gap
    · rw [List.filterMap_cons_none hgap] at h ⊢
      rw [run?, List.foldlM_cons, step?_of_none hgap]
      exact ih now h
    · rw [List.filterMap_cons_some hgap] at h ⊢
      rw [run?, List.foldlM_cons, step?_of_some hgap h]
      obtain ⟨last, hrun, hcopied, hbuilt⟩ := ih ⟨_, gap⟩ (h.sublist (List.sublist_cons_self _ _))
      refine ⟨last, hrun, hcopied.trans List.getLastD_cons.symm, ?_⟩
      rw [hbuilt, cut, String.intercalate_cons_of_ne_nil (cut_ne_nil _ _ _)]
      simp only [String.append_assoc]

end Insertion

/-! ### The loop over the tags of a text -/

/-- **Each iteration** comes about, and leaves all as it is or copies on, to the offset that its tag
wants. -/
theorem exists_step?_eq {text : String} {front rest : List InlineTag} {tag : InlineTag}
    (htags : inlineTags text = front ++ tag :: rest) :
    ∃ now next, Insertion.start.run? text front = some now ∧ now.step? text tag = some next ∧
      (tag.gap? = none ∧ next = now ∨ tag.gap? = some next.copied ∧ now.copied < next.copied) := by
  have hrises := ascends_gaps text
  rw [gaps, htags, List.filterMap_append, ← List.cons_append] at hrises
  obtain ⟨now, hrun, hcopied, -⟩ := Insertion.exists_run?_eq Insertion.start
    (hrises.sublist (List.sublist_append_left _ _))
  -- What has been copied ends at an offset that an earlier tag wanted, or nothing has been copied.
  have hmem : now.copied ∈ 0 :: front.filterMap InlineTag.gap? := by
    rw [hcopied]
    exact List.getLastD_mem_cons
  rcases hwants : tag.gap? with _ | gap
  · exact ⟨now, now, hrun, Insertion.step?_of_none hwants now, .inl ⟨rfl, rfl⟩⟩
  · rw [List.filterMap_cons_some hwants] at hrises
    have hnext : Ascends text (now.copied :: gap :: rest.filterMap InlineTag.gap?) :=
      hrises.sublist ((List.singleton_sublist.mpr hmem).append (List.Sublist.refl _))
    exact ⟨now, _, hrun, Insertion.step?_of_some hwants hnext, .inr ⟨rfl, hnext.head_lt⟩⟩

/-- Repair leaves a text as it is iff it has no gap. -/
theorem text_repair_eq_iff {text : String} : (repair text).text = text ↔ gaps text = [] := by
  rw [← String.toList_inj, toList_repair, fill_eq_self_iff notBeforeSpace_isGap, gaps_eq,
    gapOffsets_eq_nil_iff]

/-- **The loop leaves the repaired text**, and has copied nothing iff nothing is to be repaired. -/
theorem exists_finish?_eq (text : String) :
    ∃ last, Insertion.start.run? text (inlineTags text) = some last ∧
      last.finish? text = some (repair text) ∧ (last.copied = 0 ↔ (repair text).text = text) := by
  obtain ⟨last, hrun, hcopied, hbuilt⟩ := Insertion.exists_run?_eq Insertion.start
    (ascends_gaps text)
  change last.copied = (gaps text).getLastD 0 at hcopied
  replace hbuilt : last.built ++ Text.slice text last.copied text.utf8ByteSize =
      " ".intercalate (cut text 0 (gaps text)) := hbuilt.trans String.empty_append
  refine ⟨last, hrun, ?_⟩
  rw [text_repair_eq_iff]
  rcases hgaps : gaps text with _ | ⟨gap, rest⟩
  · have hzero : last.copied = 0 := by rw [hcopied, hgaps, List.getLastD_nil]
    rw [Insertion.finish?, if_pos hzero, repair, hgaps]
    exact ⟨rfl, iff_of_true hzero rfl⟩
  · have hmem : last.copied ∈ gaps text := by
      rw [hcopied, hgaps, List.getLastD_cons]
      exact List.getLastD_mem_cons
    obtain ⟨hpos, hlt, hvalid⟩ := bounds_of_mem_gaps hmem
    have hne := Nat.ne_of_gt hpos
    rw [Insertion.finish?, if_neg hne, Text.slice?_eq_some (Nat.le_of_lt hlt) hvalid
      String.Pos.Raw.isValid_rawEndPos, Option.map_some, hbuilt, repair, hgaps]
    exact ⟨rfl, iff_of_false hne (List.cons_ne_nil gap rest)⟩

/-- **The insertion of spaces never copies backwards.** The tags are those of the one search that
goes from left to right. The offsets that they want rise strictly, within the text and between
characters, so no place gets two spaces. No iteration is refused: it leaves all as it is, or it
copies on to the offset that its tag wants, which is further than what has been copied. Copying the
rest is not refused either. The repaired text comes out, and nothing has been copied iff that is the
text as it was. -/
theorem insertion_safe (text : String) :
    let tags := inlineTags text
    (∀ found, Search [] text.toList found ↔ found = tags) ∧
      (gaps text).Pairwise (· < ·) ∧
      (∀ gap ∈ gaps text, 0 < gap ∧ gap < text.utf8ByteSize ∧
        String.Pos.Raw.IsValid text ⟨gap⟩) ∧
      (∀ front tag rest, tags = front ++ tag :: rest →
        ∃ now next, Insertion.start.run? text front = some now ∧ now.step? text tag = some next ∧
          (tag.gap? = none ∧ next = now ∨
            tag.gap? = some next.copied ∧ now.copied < next.copied)) ∧
      ∃ last, Insertion.start.run? text tags = some last ∧ last.finish? text = some (repair text) ∧
        (last.copied = 0 ↔ (repair text).text = text) := by
  intro tags
  exact ⟨fun found => search_iff, (List.pairwise_cons.mp (ascends_gaps text).lt).2,
    fun gap hgap => bounds_of_mem_gaps hgap, fun front tag rest htags => exists_step?_eq htags,
    exists_finish?_eq text⟩

/-- A closing tag and an opening one meet behind a character of two bytes; one space parts them. -/
theorem insertion_safe_seam :
    let text := "é</b><i>x</i>1"
    let front : List InlineTag := [⟨.closing, 2, 6, some 'é', some '<'⟩]
    let tag : InlineTag := ⟨.opening, 6, 9, some '>', some 'x'⟩
    let rest : List InlineTag := [⟨.closing, 10, 14, some 'x', some '1'⟩]
    inlineTags text = front ++ tag :: rest ∧ gaps text = [6, 14] ∧
      String.Pos.Raw.IsValid text ⟨14⟩ ∧
      ∃ now next, Insertion.start.run? text front = some now ∧ now.step? text tag = some next ∧
        next.copied = 6 ∧ now.copied < next.copied := by
  intro text front tag rest
  have htags : inlineTags text = front ++ tag :: rest := by decide +kernel
  have hgaps : gaps text = [6, 14] := by decide +kernel
  have hmem : 14 ∈ gaps text := by rw [hgaps]; decide
  obtain ⟨-, -, hbounds, hsteps, -⟩ := insertion_safe text
  obtain ⟨now, next, hrun, hstep, ⟨hnone, -⟩ | ⟨hgap, hlt⟩⟩ := hsteps front tag rest htags
  · exact absurd hnone (by decide)
  · have hcopied : next.copied = 6 := (Option.some.inj hgap).symm
    exact ⟨htags, hgaps, (hbounds 14 hmem).2.2, now, next, hrun, hstep, hcopied, hlt⟩

end Spacing

end MarkupTrim
