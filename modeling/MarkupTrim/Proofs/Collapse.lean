import MarkupTrim.Collapse
import Mathlib.Data.List.DropRight
import Mathlib.Data.List.TakeWhile
import Mathlib.Tactic.Common

/-! # Collapsed text

What is left of a text without its layout and without the spaces at its ends, by its characters. It
has no space at either end (`head?_trimSpaces`, `getLast?_trimSpaces`), so collapsing it again
changes nothing (`collapse_collapsed`); spaces and layout on either side of a text make no difference
to it (`collapse_append_append`). There is only one way to trim a text (`trimmed_iff`), and collapsing
trims what is left without layout, whichever way it goes (`collapse_trimmed`). -/

namespace MarkupTrim

/-! ### Layout -/

theorem dropLayout_append (as bs : List Char) :
    dropLayout (as ++ bs) = dropLayout as ++ dropLayout bs := List.filter_append as bs

theorem dropLayout_cons_of_layout {c : Char} (h : isLayout c = true) (cs : List Char) :
    dropLayout (c :: cs) = dropLayout cs := List.filter_cons_of_neg (by simp [h])

theorem dropLayout_cons {c : Char} (h : isLayout c = false) (cs : List Char) :
    dropLayout (c :: cs) = c :: dropLayout cs := List.filter_cons_of_pos (by simp [h])

theorem dropLayout_eq_nil {cs : List Char} (h : ∀ c ∈ cs, isLayout c = true) :
    dropLayout cs = [] := List.filter_eq_nil_iff.mpr fun c hc => by simp [h c hc]

/-! ### What stays -/

theorem collapsed_sublist (cs : List Char) : (trimSpaces (dropLayout cs)).Sublist cs :=
  (trimSpaces_sublist _).trans List.filter_sublist

theorem notMem_collapsed {a : List Char} {c : Char} (ha : c ∉ a) :
    c ∉ trimSpaces (dropLayout a) := fun h => ha ((collapsed_sublist a).subset h)

theorem filter_dropWhile_space (cs : List Char) :
    (cs.dropWhile (· == ' ')).filter (· ≠ ' ') = cs.filter (· ≠ ' ') := by
  induction cs with
  | nil => rfl
  | cons c cs ih =>
    by_cases hc : c = ' '
    · rw [List.dropWhile_cons_of_pos (by simp [hc]), ih, List.filter_cons_of_neg (by simp [hc])]
    · rw [List.dropWhile_cons_of_neg (by simp [hc])]

theorem filter_trimSpaces (cs : List Char) :
    (trimSpaces cs).filter (· ≠ ' ') = cs.filter (· ≠ ' ') := by
  unfold trimSpaces
  rw [List.filter_reverse, filter_dropWhile_space, List.filter_reverse, List.reverse_reverse,
    filter_dropWhile_space]

/-! ### The two ends -/

theorem head?_dropWhile_space (cs : List Char) : (cs.dropWhile (· == ' ')).head? ≠ some ' ' := by
  intro h
  have hnot := List.head?_dropWhile_not (· == ' ') cs
  rw [h] at hnot
  cases hnot

theorem dropWhile_space_eq_self {cs : List Char} (h : cs.head? ≠ some ' ') :
    cs.dropWhile (· == ' ') = cs := by
  rcases cs with _ | ⟨c, cs⟩
  · rfl
  · exact List.dropWhile_cons_of_neg (by simpa using h)

theorem getLast?_trimSpaces (cs : List Char) : (trimSpaces cs).getLast? ≠ some ' ' := by
  rw [trimSpaces, List.getLast?_reverse]
  exact head?_dropWhile_space _

theorem head?_trimSpaces (cs : List Char) : (trimSpaces cs).head? ≠ some ' ' := by
  intro h
  -- The spaces at the end go last, so a text that is left has the first character it had before.
  have hpre : trimSpaces cs <+: cs.dropWhile (· == ' ') := List.rdropWhile_prefix _ _
  obtain ⟨rest, hrest⟩ := hpre
  have hhead := head?_dropWhile_space cs
  rw [← hrest, List.head?_append, h] at hhead
  exact hhead rfl

theorem dropWhile_space_cons (cs : List Char) {c : Char} (hc : c ≠ ' ') :
    (c :: cs).dropWhile (· == ' ') = c :: cs := dropWhile_space_eq_self (by simpa using hc)

theorem dropWhile_space_concat (cs : List Char) {c : Char} (hc : c ≠ ' ') :
    (cs ++ [c]).dropWhile (· == ' ') = cs.dropWhile (· == ' ') ++ [c] := by
  rw [List.dropWhile_append]
  split_ifs with h
  · rw [dropWhile_space_cons [] hc, List.isEmpty_iff.mp h]; rfl
  · rfl

theorem getLast?_trimSpaces_concat (cs : List Char) {c : Char} (hc : c ≠ ' ') :
    (trimSpaces (cs ++ [c])).getLast? = some c := by
  rw [trimSpaces, dropWhile_space_concat cs hc, List.reverse_append, List.reverse_singleton,
    List.singleton_append, dropWhile_space_cons _ hc, List.getLast?_reverse]
  rfl

theorem head?_trimSpaces_cons (cs : List Char) {c : Char} (hc : c ≠ ' ') :
    (trimSpaces (c :: cs)).head? = some c := by
  rw [trimSpaces, dropWhile_space_cons cs hc, List.reverse_cons, dropWhile_space_concat _ hc,
    List.reverse_append]
  rfl

/-- A solid character is neither a space nor layout. -/
theorem ne_space_of_not_isBlank {c : Char} (hc : isBlank c = false) :
    c ≠ ' ' ∧ isLayout c = false := by
  constructor
  · rintro rfl
    exact absurd hc (by decide)
  · by_contra hlayout
    rw [isBlank_of_isLayout (by simpa using hlayout)] at hc
    cases hc

/-- **The last character of a text stays** if it is not blank. -/
theorem getLast?_collapsed {cs : List Char} {c : Char} (hc : isBlank c = false)
    (h : cs.getLast? = some c) : (trimSpaces (dropLayout cs)).getLast? = some c := by
  obtain ⟨hspace, hlayout⟩ := ne_space_of_not_isBlank hc
  obtain ⟨init, rfl⟩ := List.getLast?_eq_some_iff.mp h
  rw [dropLayout_append, dropLayout_cons hlayout]
  exact getLast?_trimSpaces_concat _ hspace

/-- **The first character of a text stays** if it is not blank. -/
theorem head?_collapsed {cs : List Char} {c : Char} (hc : isBlank c = false) :
    (trimSpaces (dropLayout (c :: cs))).head? = some c := by
  obtain ⟨hspace, hlayout⟩ := ne_space_of_not_isBlank hc
  rw [dropLayout_cons hlayout, head?_trimSpaces_cons _ hspace]

/-- Collapsed text has neither a space nor layout at its end. -/
theorem getLast?_collapsed_ne {cs : List Char} {c : Char}
    (h : (trimSpaces (dropLayout cs)).getLast? = some c) : c ≠ ' ' ∧ isLayout c = false := by
  constructor
  · rintro rfl
    exact getLast?_trimSpaces _ h
  · have hmem := (trimSpaces_sublist _).subset (List.mem_of_getLast? h)
    simpa using (List.mem_filter.mp hmem).2

/-- **Without spaces at its ends a text is left alone.** -/
theorem trimSpaces_eq_self {cs : List Char} (hhead : cs.head? ≠ some ' ')
    (hlast : cs.getLast? ≠ some ' ') : trimSpaces cs = cs := by
  rw [← List.head?_reverse] at hlast
  rw [trimSpaces, dropWhile_space_eq_self hhead, dropWhile_space_eq_self hlast,
    List.reverse_reverse]

/-- **Collapsing twice is collapsing once.** -/
theorem collapse_collapsed (cs : List Char) :
    trimSpaces (dropLayout (trimSpaces (dropLayout cs))) = trimSpaces (dropLayout cs) := by
  have hlayout : dropLayout (trimSpaces (dropLayout cs)) = trimSpaces (dropLayout cs) := by
    refine List.filter_eq_self.mpr fun c hc => ?_
    have hmem : c ∈ cs.filter fun c => !isLayout c := (trimSpaces_sublist _).subset hc
    exact (List.mem_filter.mp hmem).2
  rw [hlayout]
  exact trimSpaces_eq_self (head?_trimSpaces _) (getLast?_trimSpaces _)

/-! ### Spaces on either side -/

/-- What is trimmed away is spaces. -/
theorem exists_eq_trimSpaces (cs : List Char) :
    ∃ lead tail, cs = lead ++ (trimSpaces cs ++ tail) ∧ (∀ c ∈ lead, c = ' ') ∧
      ∀ c ∈ tail, c = ' ' := by
  have hspaces (as : List Char) : ∀ c ∈ as.takeWhile (· == ' '), c = ' ' := fun c hc => by
    simpa using List.mem_takeWhile_imp hc
  have hback (as : List Char) :
      as = (as.reverse.dropWhile (· == ' ')).reverse ++ (as.reverse.takeWhile (· == ' ')).reverse := by
    rw [← List.reverse_append, List.takeWhile_append_dropWhile, List.reverse_reverse]
  refine ⟨cs.takeWhile (· == ' '), ((cs.dropWhile (· == ' ')).reverse.takeWhile (· == ' ')).reverse,
    ?_, hspaces cs, fun c hc => hspaces _ c (List.mem_reverse.mp hc)⟩
  unfold trimSpaces
  rw [← hback, List.takeWhile_append_dropWhile]

theorem trimSpaces_append_append {lead tail : List Char} (hlead : ∀ c ∈ lead, c = ' ')
    (htail : ∀ c ∈ tail, c = ' ') (cs : List Char) :
    trimSpaces (lead ++ (cs ++ tail)) = trimSpaces cs := by
  have hlead : ∀ c ∈ lead, (c == ' ') = true := fun c hc => by rw [hlead c hc]; rfl
  have htail : ∀ c ∈ tail, (c == ' ') = true := fun c hc => by rw [htail c hc]; rfl
  have hback : ∀ c ∈ tail.reverse, (c == ' ') = true := fun c hc =>
    htail c (List.mem_reverse.mp hc)
  unfold trimSpaces
  rw [List.dropWhile_append_of_pos hlead, List.dropWhile_append]
  split_ifs with h
  · rw [List.isEmpty_iff.mp h, List.dropWhile_eq_nil_iff.mpr htail]
  · rw [List.reverse_append, List.dropWhile_append_of_pos hback]

/-- **Spaces and layout on either side of a text make no difference** when it is collapsed. -/
theorem collapse_append_append {lead tail : List Char}
    (hlead : ∀ c ∈ lead, c = ' ' ∨ isLayout c = true)
    (htail : ∀ c ∈ tail, c = ' ' ∨ isLayout c = true) (cs : List Char) :
    trimSpaces (dropLayout (lead ++ (cs ++ tail))) = trimSpaces (dropLayout cs) := by
  have hspaces : ∀ as : List Char, (∀ c ∈ as, c = ' ' ∨ isLayout c = true) →
      ∀ c ∈ dropLayout as, c = ' ' := by
    intro as has c hc
    obtain ⟨hmem, hnot⟩ := List.mem_filter.mp hc
    exact (has c hmem).resolve_right (by simpa using hnot)
  rw [dropLayout_append, dropLayout_append]
  exact trimSpaces_append_append (hspaces lead hlead) (hspaces tail htail) _

/-! ### Collapsing as a whole -/

/-- The second text is the first without the spaces at its ends: around it there are only spaces, and
it neither starts nor ends with one. -/
structure Trimmed (whole core : List Char) : Prop where
  around : ∃ lead tail, whole = lead ++ (core ++ tail) ∧ (∀ c ∈ lead, c = ' ') ∧
    ∀ c ∈ tail, c = ' '
  head : core.head? ≠ some ' '
  last : core.getLast? ≠ some ' '

/-- **There is one way to trim a text.** -/
theorem trimmed_iff {whole core : List Char} : Trimmed whole core ↔ trimSpaces whole = core := by
  constructor
  · rintro ⟨⟨lead, tail, rfl, hlead, htail⟩, hhead, hlast⟩
    rw [trimSpaces_append_append hlead htail, trimSpaces_eq_self hhead hlast]
  · rintro rfl
    exact ⟨exists_eq_trimSpaces whole, head?_trimSpaces whole, getLast?_trimSpaces whole⟩

theorem isLayout_iff {c : Char} : isLayout c = true ↔ c = '\t' ∨ c = '\r' ∨ c = '\n' := by
  simp [isLayout, or_assoc]

theorem not_any_isLayout_iff {cs : List Char} :
    cs.any isLayout = false ↔ '\t' ∉ cs ∧ '\r' ∉ cs ∧ '\n' ∉ cs := by
  simp only [List.any_eq_false, isLayout_iff]
  constructor
  · intro h
    exact ⟨fun hc => h _ hc (by simp), fun hc => h _ hc (by simp), fun hc => h _ hc (by simp)⟩
  · rintro ⟨ht, hr, hn⟩ c hc (rfl | rfl | rfl)
    · exact ht hc
    · exact hr hc
    · exact hn hc

theorem dropLayout_eq_filter (cs : List Char) :
    dropLayout cs = cs.filter fun c => c ≠ '\t' ∧ c ≠ '\r' ∧ c ≠ '\n' := by
  refine List.filter_congr fun c _ => ?_
  rw [Bool.eq_iff_iff, decide_eq_true_iff, Bool.not_eq_true', ← not_iff_not, Bool.not_eq_false,
    isLayout_iff]
  tauto

/-- **Collapsing deletes and trims**, whichever way it goes. What it gives is the text without tabs,
carriage returns and line feeds, trimmed, and no other text is that. It is a stretch of the text
iff the text has none of these characters. So what it gives has none of them, has no space at either
end and collapses to itself; and a text collapses to the same whatever spaces, tabs, carriage returns
and line feeds are put around it. -/
theorem collapse_trimmed (text : String) :
    let collapsed := (collapse text).text
    (∀ core : String, collapsed = core ↔
        Trimmed (text.toList.filter fun c => c ≠ '\t' ∧ c ≠ '\r' ∧ c ≠ '\n') core.toList) ∧
      ((collapse text).isKept = true ↔
        '\t' ∉ text.toList ∧ '\r' ∉ text.toList ∧ '\n' ∉ text.toList) ∧
      ((collapse text).isKept = true → collapsed.toList <:+: text.toList) ∧
      collapse collapsed = .kept collapsed ∧
      ('\t' ∉ collapsed.toList ∧ '\r' ∉ collapsed.toList ∧ '\n' ∉ collapsed.toList) ∧
      collapsed.toList.head? ≠ some ' ' ∧ collapsed.toList.getLast? ≠ some ' ' ∧
      ∀ lead tail : String, (∀ c ∈ lead.toList ++ tail.toList, c ∈ [' ', '\t', '\r', '\n']) →
        (collapse (lead ++ text ++ tail)).text = collapsed := by
  intro collapsed
  have hcollapsed : collapsed.toList = trimSpaces (dropLayout text.toList) := toList_collapse text
  have hkept : (collapse text).isKept = true ↔ text.toList.any isLayout = false := by
    rw [isKept_collapse, Bool.not_eq_true']
  have hclean : collapsed.toList.any isLayout = false := by
    refine List.any_eq_false.mpr fun c hc => ?_
    rw [hcollapsed] at hc
    simpa using (List.mem_filter.mp ((trimSpaces_sublist _).subset hc)).2
  have hhead : collapsed.toList.head? ≠ some ' ' := hcollapsed ▸ head?_trimSpaces _
  have hlast : collapsed.toList.getLast? ≠ some ' ' := hcollapsed ▸ getLast?_trimSpaces _
  refine ⟨fun core => ?_, hkept.trans not_any_isLayout_iff, fun h => ?_, ?_,
    not_any_isLayout_iff.mp hclean, hhead, hlast, fun lead tail hslack => ?_⟩
  · rw [trimmed_iff, ← dropLayout_eq_filter, ← hcollapsed, String.toList_inj]
  · obtain ⟨before, behind, hsplit, -⟩ := exists_eq_trimSpaces text.toList
    rw [hcollapsed, dropLayout_of_not_any (hkept.mp h)]
    exact ⟨before, behind, by rw [List.append_assoc, ← hsplit]⟩
  · rw [collapse, if_neg (by simp [hclean]), trimSpaces_eq_self hhead hlast, String.ofList_toList]
  · have hspaces (c : Char) (hc : c ∈ lead.toList ++ tail.toList) :
        c = ' ' ∨ isLayout c = true := by
      rw [isLayout_iff]
      simpa using hslack c hc
    rw [← String.toList_inj, hcollapsed, toList_collapse, String.toList_append,
      String.toList_append, List.append_assoc]
    exact collapse_append_append (fun c hc => hspaces c (List.mem_append_left _ hc))
      (fun c hc => hspaces c (List.mem_append_right _ hc)) _

/-- A no-break space stays, and a space that a tab hides from the end does not. -/
theorem collapse_trimmed_noBreak :
    (collapse "\u00a0x\r\n y \t").text = "\u00a0x y" ∧
      collapse "\u00a0x y" = .kept "\u00a0x y" ∧
      (∀ c ∈ "\n ".toList ++ " \t".toList, c ∈ [' ', '\t', '\r', '\n']) ∧
      (collapse ("\n " ++ "\u00a0x\r\n y \t" ++ " \t")).text = "\u00a0x y" ∧
      (collapse " \u00a0 ").isKept = true ∧
      (collapse " \u00a0 ").text.toList <:+: " \u00a0 ".toList := by
  have hslack : ∀ c ∈ "\n ".toList ++ " \t".toList, c ∈ [' ', '\t', '\r', '\n'] := by simp
  have hcollapsed : (collapse "\u00a0x\r\n y \t").text = "\u00a0x y" := by decide +kernel
  have hkept : (collapse " \u00a0 ").isKept = true := by decide +kernel
  obtain ⟨-, -, -, hagain, -, -, -, haround⟩ := collapse_trimmed "\u00a0x\r\n y \t"
  obtain ⟨-, -, hstretch, -⟩ := collapse_trimmed " \u00a0 "
  exact ⟨hcollapsed, hcollapsed ▸ hagain, hslack, hcollapsed ▸ haround "\n " " \t" hslack, hkept,
    hstretch hkept⟩

end MarkupTrim
