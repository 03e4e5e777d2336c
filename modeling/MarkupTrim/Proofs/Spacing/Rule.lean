import MarkupTrim.Spacing.Gap
import Mathlib.Data.List.Basic
import Mathlib.Tactic.Common

/-! # The rule for gaps

Where a space is missing, said of a text cut in two. A text *opens* if it starts with `<name`, name
inline, and what ends a name or nothing more; it *closes* if it ends with `</name>`, name inline. A
cut is a gap if what stands in front of it ends in a character that is not blank and what follows
opens, or if what stands in front closes and what follows starts with a letter or digit (`Gap`). The
search for tags finds these two shapes: `leadingTag?_cases`. -/

namespace MarkupTrim.Spacing

/-- The text ends in a character that is not blank. -/
def EndsSolid (cs : List Char) : Prop := (cs.getLast?.any fun c => !isBlank c) = true

/-- The text starts with a letter or digit of ASCII. -/
def StartsWord (cs : List Char) : Prop := cs.head?.any Char.isAlphanum = true

/-- The text is over, or goes on with what ends a name. -/
def NameEnds (cs : List Char) : Prop := cs.head?.all endsName = true

/-- The text starts with an opening inline tag. -/
def Opens (cs : List Char) : Prop :=
  ∃ name ∈ inlineNames, ∃ rest, cs = '<' :: (name.toList ++ rest) ∧ NameEnds rest

/-- The characters of `</name>`. -/
def closingTag (name : String) : List Char := '<' :: '/' :: (name.toList ++ ['>'])

/-- The text ends with a closing inline tag. -/
def Closes (cs : List Char) : Prop := ∃ name ∈ inlineNames, closingTag name <:+ cs

/-- **A space is missing** between two parts of a text. -/
def Gap (before ahead : List Char) : Prop :=
  (EndsSolid before ∧ Opens ahead) ∨ (Closes before ∧ StartsWord ahead)

instance : DecidablePred EndsSolid := fun _ => inferInstanceAs (Decidable (_ = true))
instance : DecidablePred StartsWord := fun _ => inferInstanceAs (Decidable (_ = true))
instance : DecidablePred NameEnds := fun _ => inferInstanceAs (Decidable (_ = true))
instance : DecidablePred Closes := fun _ =>
  inferInstanceAs (Decidable (∃ name ∈ inlineNames, closingTag name <:+ _))

/-! ### Characters -/

theorem not_isLower_of_endsName {c : Char} (h : endsName c = true) : c.isLower = false := by
  by_contra hl
  have hl : c.isLower = true := by simpa using hl
  have hb : isBlank c = false := isBlank_of_isLower hl
  simp only [endsName, hb, Bool.false_or, Bool.or_eq_true, beq_iff_eq] at h
  rcases h with rfl | rfl <;> exact absurd hl (by decide)

theorem isLower_of_mem_name {name : String} (h : name ∈ inlineNames) {c : Char}
    (hc : c ∈ name.toList) : c.isLower = true :=
  List.all_eq_true.mp (isLower_of_isInline (isInline_iff.mpr h)).2 c hc

theorem notMem_name {name : String} (h : name ∈ inlineNames) {c : Char} (hc : c.isLower = false) :
    c ∉ name.toList := fun hm => by
  rw [isLower_of_mem_name h hm] at hc; cases hc

theorem notMem_lt_name {name : String} (h : name ∈ inlineNames) {c : Char}
    (hc : c.isLower = false) (hlt : c ≠ '<') : c ∉ '<' :: name.toList := by
  intro hm
  rcases List.mem_cons.mp hm with hm | hm
  · exact hlt hm
  · exact notMem_name h hc hm

theorem notMem_slash_name {name : String} (h : name ∈ inlineNames) {c : Char}
    (hc : c.isLower = false) (hslash : c ≠ '/') : c ∉ '/' :: name.toList := by
  intro hm
  rcases List.mem_cons.mp hm with hm | hm
  · exact hslash hm
  · exact notMem_name h hc hm

theorem ne_of_isLower {c d : Char} (hc : c.isLower = true) (hd : d.isLower = false) : c ≠ d := by
  rintro rfl
  rw [hc] at hd; cases hd

theorem exists_name_eq_cons {name : String} (h : name ∈ inlineNames) :
    ∃ c cs, name.toList = c :: cs ∧ c.isLower = true := by
  have hne := (isLower_of_isInline (isInline_iff.mpr h)).1
  rcases hl : name.toList with _ | ⟨c, cs⟩
  · exact absurd (String.toList_inj.mp hl) hne
  · exact ⟨c, cs, rfl, isLower_of_mem_name h (by rw [hl]; exact List.mem_cons_self)⟩

/-- A name in front of what does not go on with it is read as a whole. -/
theorem span_name {name : String} (h : name ∈ inlineNames) {rest : List Char}
    (hrest : rest.head?.all fun c => !c.isLower) :
    (name.toList ++ rest).takeWhile Char.isLower = name.toList ∧
      (name.toList ++ rest).dropWhile Char.isLower = rest := by
  have hname : ∀ c ∈ name.toList, c.isLower = true := fun c hc => isLower_of_mem_name h hc
  rw [List.takeWhile_append_of_pos hname, List.dropWhile_append_of_pos hname]
  rcases rest with _ | ⟨c, rest⟩
  · simp
  · have hc : c.isLower = false := by simpa using hrest
    simp [hc]

/-! ### What the shapes exclude -/

theorem not_opens_nil : ¬ Opens [] := by
  rintro ⟨name, -, rest, h, -⟩; cases h

theorem Opens.exists_eq {cs : List Char} (h : Opens cs) :
    ∃ c rest, cs = '<' :: c :: rest ∧ c.isLower = true := by
  obtain ⟨name, hname, rest, rfl, -⟩ := h
  obtain ⟨c, cs, hc, hl⟩ := exists_name_eq_cons hname
  exact ⟨c, cs ++ rest, by rw [hc]; rfl, hl⟩

theorem StartsWord.exists_eq {cs : List Char} (h : StartsWord cs) :
    ∃ c rest, cs = c :: rest ∧ c.isAlphanum = true := by
  rcases cs with _ | ⟨c, rest⟩
  · cases h
  · exact ⟨c, rest, rfl, h⟩

theorem not_startsWord_lt (cs : List Char) : ¬ StartsWord ('<' :: cs) := by
  intro h
  obtain ⟨c, rest, he, hc⟩ := h.exists_eq
  obtain ⟨rfl, -⟩ := List.cons.inj he
  exact absurd hc (by decide)

theorem StartsWord.not_opens {cs : List Char} (h : StartsWord cs) : ¬ Opens cs := fun hopens => by
  obtain ⟨c, rest, rfl, -⟩ := hopens.exists_eq
  exact not_startsWord_lt _ h

theorem Closes.getLast? {cs : List Char} (h : Closes cs) : cs.getLast? = some '>' := by
  obtain ⟨name, -, p, rfl⟩ := h
  have : p ++ closingTag name = (p ++ '<' :: '/' :: name.toList) ++ ['>'] := by simp [closingTag]
  rw [this, List.getLast?_concat]

theorem Closes.endsSolid {cs : List Char} (h : Closes cs) : EndsSolid cs := by
  rw [EndsSolid, h.getLast?]
  decide

theorem not_closes_nil : ¬ Closes [] := fun h => by
  have := h.getLast?; cases this

theorem not_closes_singleton (c : Char) : ¬ Closes [c] := by
  rintro ⟨name, -, h⟩
  have := h.length_le
  simp [closingTag] at this

theorem Closes.append_left {cs : List Char} (h : Closes cs) (p : List Char) : Closes (p ++ cs) := by
  obtain ⟨name, hname, hs⟩ := h
  exact ⟨name, hname, hs.trans (List.suffix_append p cs)⟩

/-- Behind a part that is not empty a gap hangs on more than the part only by what closes. -/
theorem gap_append_iff {front as bs : List Char} (has : as ≠ [])
    (h : StartsWord bs → (Closes (front ++ as) ↔ Closes as)) : Gap (front ++ as) bs ↔ Gap as bs := by
  have hsolid : EndsSolid (front ++ as) ↔ EndsSolid as := by
    rw [EndsSolid, EndsSolid, List.getLast?_append_of_ne_nil _ has]
  unfold Gap
  rw [hsolid]
  exact or_congr Iff.rfl (and_congr_left h)

/-- Nothing is missing at the two ends of a text. -/
theorem not_gap_nil (cs : List Char) : ¬ Gap [] cs := by
  rintro (⟨h, -⟩ | ⟨h, -⟩)
  · cases h
  · exact not_closes_nil h

theorem not_gap_of_nil_ahead (cs : List Char) : ¬ Gap cs [] := by
  rintro (⟨-, h⟩ | ⟨-, h⟩)
  · exact not_opens_nil h
  · cases h

/-- Only in front of a `<`, a letter or a digit can a space be missing. -/
theorem Gap.head_eq {before : List Char} {c : Char} {cs : List Char} (h : Gap before (c :: cs)) :
    c = '<' ∨ c.isAlphanum = true := by
  rcases h with ⟨-, h⟩ | ⟨-, h⟩
  · obtain ⟨d, rest, he, -⟩ := h.exists_eq
    exact Or.inl (List.cons.inj he).1
  · exact Or.inr h

theorem Gap.head_ne_space {before : List Char} {c : Char} {cs : List Char}
    (h : Gap before (c :: cs)) : c ≠ ' ' := by
  rintro rfl
  rcases h.head_eq with h | h <;> exact absurd h (by decide)

theorem gap_lt_iff {before cs : List Char} :
    Gap before ('<' :: cs) ↔ EndsSolid before ∧ Opens ('<' :: cs) := by
  refine ⟨?_, Or.inl⟩
  rintro (h | ⟨-, h⟩)
  · exact h
  · exact absurd h (not_startsWord_lt cs)

theorem gap_cons_iff {before cs : List Char} {c : Char} (hc : c ≠ '<') :
    Gap before (c :: cs) ↔ Closes before ∧ c.isAlphanum = true := by
  constructor
  · rintro (⟨-, h⟩ | h)
    · obtain ⟨d, rest, he, -⟩ := h.exists_eq
      exact absurd (List.cons.inj he).1 hc
    · exact h
  · exact Or.inr

/-! ### Closing tags in place -/

theorem lt_notMem_closingTag {name : String} (h : name ∈ inlineNames) :
    '<' ∉ '/' :: (name.toList ++ ['>']) := by
  have := notMem_name h (c := '<') (by decide)
  simp [this]

theorem eq_of_append_lt {p q v w : List Char} (h : p ++ '<' :: v = q ++ '<' :: w) (hv : '<' ∉ v)
    (hw : '<' ∉ w) : v = w := by
  have key : ∀ p v : List Char, '<' ∉ v →
      (p ++ '<' :: v).reverse.takeWhile (· ≠ '<') = v.reverse := by
    intro p v hv
    rw [List.reverse_append, List.reverse_cons, List.append_assoc,
      List.takeWhile_append_of_pos fun c hc => by
        have : c ≠ '<' := fun he => hv (by simpa [he] using hc)
        simpa using this]
    simp
  have := key p v hv
  rw [h, key q w hw] at this
  exact (List.reverse_injective this).symm

theorem append_lt_inj {p q v w : List Char} (h : v ++ '<' :: p = w ++ '<' :: q) (hv : '<' ∉ v)
    (hw : '<' ∉ w) : v = w ∧ p = q := by
  rcases List.append_eq_append_iff.mp h with ⟨x, rfl, hx⟩ | ⟨x, rfl, hx⟩
  · rcases x with _ | ⟨c, x⟩
    · exact ⟨by simp, (List.cons.inj hx).2⟩
    · exact absurd (by simp [← (List.cons.inj hx).1]) hw
  · rcases x with _ | ⟨c, x⟩
    · exact ⟨by simp, (List.cons.inj hx).2.symm⟩
    · exact absurd (by simp [← (List.cons.inj hx).1]) hv

/-- A text closes iff all from its last `<` on is one closing tag. -/
theorem closes_lt_iff {p w : List Char} (hw : '<' ∉ w) :
    Closes (p ++ '<' :: w) ↔ ∃ name ∈ inlineNames, w = '/' :: (name.toList ++ ['>']) := by
  constructor
  · rintro ⟨name, hname, q, h⟩
    exact ⟨name, hname, (eq_of_append_lt h (lt_notMem_closingTag hname) hw).symm⟩
  · rintro ⟨name, hname, rfl⟩
    exact ⟨name, hname, p, rfl⟩

/-- No closing tag ends within an opening one or right behind it. -/
theorem not_closes_lt {p w : List Char} (hw : '<' ∉ w) (hh : w.head? ≠ some '/') :
    ¬ Closes (p ++ '<' :: w) := by
  rw [closes_lt_iff hw]
  rintro ⟨name, -, rfl⟩
  exact hh rfl

/-! ### The search for tags -/

theorem opening?_eq {name : String} (hname : name ∈ inlineNames) {rest : List Char}
    (h : rest.head?.all fun c => !c.isLower) :
    opening? ('<' :: (name.toList ++ rest)) =
      match rest.head? with
      | none => some (name.toList.length + 1)
      | some c => if endsName c then some (name.toList.length + 2) else none := by
  obtain ⟨htake, hdrop⟩ := span_name hname h
  rw [opening?, htake, hdrop, String.ofList_toList]
  exact if_pos (isInline_iff.mpr hname)

/-- The opening tag that is found: `<name` and, unless the text is over, what ends the name. -/
theorem opening?_eq_some {cs : List Char} {count : Nat} (h : opening? cs = some count) :
    ∃ name ∈ inlineNames, ∃ stop rest, cs = '<' :: (name.toList ++ (stop ++ rest)) ∧
      count = name.toList.length + stop.length + 1 ∧
      (stop = [] ∧ rest = [] ∨ ∃ c, stop = [c] ∧ endsName c = true) := by
  unfold opening? at h
  split at h
  · next rest =>
    simp only at h
    split_ifs at h with hinline
    have hsplit := (List.takeWhile_append_dropWhile (p := Char.isLower) (l := rest)).symm
    have hname := isInline_iff.mp hinline
    rcases hrest : rest.dropWhile Char.isLower with _ | ⟨c, tail⟩
    · rw [hrest] at h hsplit
      simp only [List.head?_nil, Option.some.injEq] at h
      refine ⟨_, hname, [], [], ?_, ?_, Or.inl ⟨rfl, rfl⟩⟩
      · rw [String.toList_ofList]; simpa using hsplit
      · rw [String.toList_ofList, ← h]; rfl
    · rw [hrest] at h hsplit
      simp only [List.head?_cons] at h
      split_ifs at h with hc
      refine ⟨_, hname, [c], tail, ?_, ?_, Or.inr ⟨c, rfl, hc⟩⟩
      · rw [String.toList_ofList]; simpa using hsplit
      · rw [String.toList_ofList]; simpa using h.symm
  · cases h

/-- **A text opens iff an opening tag is found at its front.** -/
theorem opening?_isSome_iff {cs : List Char} : (opening? cs).isSome = true ↔ Opens cs := by
  constructor
  · intro h
    obtain ⟨count, hcount⟩ := Option.isSome_iff_exists.mp h
    obtain ⟨name, hname, stop, rest, rfl, -, hstop⟩ := opening?_eq_some hcount
    refine ⟨name, hname, stop ++ rest, rfl, ?_⟩
    rcases hstop with ⟨rfl, rfl⟩ | ⟨c, rfl, hc⟩
    · rfl
    · simpa [NameEnds] using hc
  · rintro ⟨name, hname, rest, rfl, hrest⟩
    unfold NameEnds at hrest
    rcases rest with _ | ⟨c, rest⟩
    · rw [opening?_eq hname (by simp)]; rfl
    · simp only [List.head?_cons, Option.all_some] at hrest
      rw [opening?_eq hname (by simpa using not_isLower_of_endsName hrest)]
      simp [hrest]

instance : DecidablePred Opens := fun _ => decidable_of_iff _ opening?_isSome_iff
instance : DecidableRel Gap := fun _ _ => inferInstanceAs (Decidable (_ ∨ _))

/-- Whether a space is missing between two parts of a text. -/
def isGap (before ahead : List Char) : Bool := decide (Gap before ahead)

theorem isGap_iff {before ahead : List Char} : isGap before ahead = true ↔ Gap before ahead :=
  decide_eq_true_iff

theorem isGap_eq_false_iff {before ahead : List Char} :
    isGap before ahead = false ↔ ¬ Gap before ahead := decide_eq_false_iff_not

/-- A text has no gap at places of a kind, said with and without the end of the text. -/
theorem forall_isGap_eq_false_iff (P : List Char → Prop) (cs : List Char) :
    (∀ as bs, cs = as ++ bs → bs ≠ [] → P as → isGap as bs = false) ↔
      ¬ ∃ as bs, cs = as ++ bs ∧ P as ∧ Gap as bs := by
  constructor
  · rintro h ⟨as, bs, he, has, hgap⟩
    have hbs : bs ≠ [] := by rintro rfl; exact not_gap_of_nil_ahead _ hgap
    exact isGap_eq_false_iff.mp (h as bs he hbs has) hgap
  · intro h as bs he _ has
    exact isGap_eq_false_iff.mpr fun hgap => h ⟨as, bs, he, has, hgap⟩

theorem closing?_closingTag {name : String} (hname : name ∈ inlineNames) (rest : List Char) :
    closing? (closingTag name ++ rest) = some (closingTag name).length := by
  obtain ⟨htake, hdrop⟩ := span_name hname (show ('>' :: rest).head?.all _ = true by
    simp [show Char.isLower '>' = false by decide])
  have heq : closingTag name ++ rest = '<' :: '/' :: (name.toList ++ '>' :: rest) := by
    simp [closingTag]
  rw [heq, closing?, htake, hdrop, String.ofList_toList,
    if_pos ⟨isInline_iff.mpr hname, rfl⟩]
  simp [closingTag]

theorem closing?_eq_some {cs : List Char} {count : Nat} (h : closing? cs = some count) :
    ∃ name ∈ inlineNames, ∃ rest, cs = closingTag name ++ rest := by
  unfold closing? at h
  split at h
  · next rest =>
    simp only at h
    split_ifs at h with hif
    have hsplit := (List.takeWhile_append_dropWhile (p := Char.isLower) (l := rest)).symm
    rcases hrest : rest.dropWhile Char.isLower with _ | ⟨c, tail⟩
    · rw [hrest] at hif; cases hif.2
    · rw [hrest] at hif hsplit
      obtain rfl : c = '>' := by simpa using hif.2
      refine ⟨_, isInline_iff.mp hif.1, tail, ?_⟩
      rw [closingTag, String.toList_ofList]
      simpa using hsplit
  · cases h

/-- **The tag at the front of a text**: none, a closing one or an opening one. An opening tag has one
`<` and, right behind it, no `/`. -/
theorem leadingTag?_cases (cs : List Char) :
    (leadingTag? cs = none ∧ ¬ Opens cs ∧ ∀ name ∈ inlineNames, ¬ closingTag name <+: cs) ∨
    (∃ name ∈ inlineNames, ∃ rest, cs = closingTag name ++ rest ∧
      leadingTag? cs = some (.closing, (closingTag name).length)) ∨
    (∃ c tail rest, cs = '<' :: c :: (tail ++ rest) ∧ Opens cs ∧ c ≠ '/' ∧ '<' ∉ c :: tail ∧
      leadingTag? cs = some (.opening, tail.length + 2)) := by
  rcases hopen : opening? cs with _ | count
  · have hnot : ¬ Opens cs := fun h => by
      rw [← opening?_isSome_iff, hopen] at h; cases h
    rcases hclose : closing? cs with _ | count
    · refine Or.inl ⟨by rw [leadingTag?, hopen, hclose]; rfl, hnot, ?_⟩
      rintro name hname ⟨rest, rfl⟩
      rw [closing?_closingTag hname] at hclose
      cases hclose
    · obtain ⟨name, hname, rest, rfl⟩ := closing?_eq_some hclose
      refine Or.inr (Or.inl ⟨name, hname, rest, rfl, ?_⟩)
      rw [leadingTag?, hopen, closing?_closingTag hname]; rfl
  · have hopens : Opens cs := opening?_isSome_iff.mp (by rw [hopen]; rfl)
    obtain ⟨name, hname, stop, rest, rfl, hcount, hstop⟩ := opening?_eq_some hopen
    obtain ⟨c, cs, hc, hl⟩ := exists_name_eq_cons hname
    refine Or.inr (Or.inr ⟨c, cs ++ stop, rest, by simp [hc], hopens, ?_, ?_, ?_⟩)
    · exact ne_of_isLower hl (by decide)
    · rw [← List.cons_append, ← hc]
      intro hm
      rcases List.mem_append.mp hm with hm | hm
      · exact notMem_name hname (by decide) hm
      · rcases hstop with ⟨rfl, -⟩ | ⟨d, rfl, hd⟩
        · cases hm
        · rw [← List.mem_singleton.mp hm] at hd
          exact absurd hd (by decide)
    · rw [leadingTag?, hopen, hcount, hc]
      simp only [List.length_cons, List.length_append, Option.some.injEq, Prod.mk.injEq, true_and]
      omega

end MarkupTrim.Spacing
