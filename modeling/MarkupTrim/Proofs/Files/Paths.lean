import MarkupTrim.Files.Walk
import Mathlib.Data.List.Infix
import Mathlib.Data.List.TakeWhile
import Mathlib.Tactic.Common

/-! # Paths and names

The path of what is below a directory tells the names that lead there (`pathOf_inj`), as names have
no slash. A name has an extension if it has a dot with something in front of it, and the extension is
what stands behind the last one (`extension?_eq_some_iff`). -/

namespace MarkupTrim.Files

/-- What can be a name in a directory: it is not empty, has no slash, and is none of the two that
stand for directories. -/
structure IsName (name : String) : Prop where
  ne_empty : name ≠ ""
  ne_dot : name ≠ "."
  ne_up : name ≠ ".."
  slash : '/' ∉ name.toList

theorem isName_iff {name : String} :
    IsName name ↔ name ≠ "" ∧ name ≠ "." ∧ name ≠ ".." ∧ '/' ∉ name.toList :=
  ⟨fun h => ⟨h.ne_empty, h.ne_dot, h.ne_up, h.slash⟩,
    fun h => ⟨h.1, h.2.1, h.2.2.1, h.2.2.2⟩⟩

instance : DecidablePred IsName := fun _ => decidable_of_iff _ isName_iff.symm

theorem components_intercalate {names : Location} (hne : names ≠ [])
    (hnames : ∀ name ∈ names, IsName name) : components ("/".intercalate names) = names := by
  have hsplit : ("/".intercalate names).toList.splitOn '/' = names.map String.toList := by
    rw [String.toList_intercalate]
    refine List.splitOn_intercalate '/' (fun cs hcs => ?_) (by simpa using hne)
    obtain ⟨name, hname, rfl⟩ := List.mem_map.mp hcs
    exact (hnames name hname).slash
  rw [components, hsplit, List.map_map]
  exact List.map_id'' (fun _ => String.ofList_toList) names

theorem join_eq (directory : String) :
    ∃ slash, ∀ below, join directory below = directory ++ (slash ++ below) := by
  by_cases hslash : directory.toList.getLast? = some '/'
  · exact ⟨"", fun below => by rw [join, if_pos hslash, String.empty_append]⟩
  · exact ⟨"/", fun below => by rw [join, if_neg hslash, String.append_assoc]⟩

theorem join_inj {directory a b : String} : join directory a = join directory b ↔ a = b := by
  obtain ⟨slash, hjoin⟩ := join_eq directory
  rw [hjoin, hjoin, String.append_right_inj, String.append_right_inj]

theorem join_ne {directory below : String} (h : below ≠ "") : join directory below ≠ directory := by
  obtain ⟨slash, hjoin⟩ := join_eq directory
  rw [hjoin]
  simp [h]

/-- What is below a directory has another path than the directory. -/
theorem pathOf_cons_ne {directory name : String} {rest : Location}
    (hnames : ∀ part ∈ name :: rest, IsName part) : pathOf directory (name :: rest) ≠ directory := by
  refine join_ne fun hempty => ?_
  have hcomponents := components_intercalate (List.cons_ne_nil name rest) hnames
  rw [hempty] at hcomponents
  exact (hnames "" (hcomponents ▸ List.mem_cons_self)).ne_empty rfl

/-- **The path tells the names.** -/
theorem pathOf_inj {directory : String} {a b : Location} (hnames : ∀ name ∈ a, IsName name)
    (hnames' : ∀ name ∈ b, IsName name) : pathOf directory a = pathOf directory b ↔ a = b := by
  refine ⟨fun h => ?_, congrArg _⟩
  cases a with
  | nil =>
    cases b with
    | nil => rfl
    | cons t b => exact absurd h.symm (pathOf_cons_ne hnames')
  | cons s a =>
    cases b with
    | nil => exact absurd h (pathOf_cons_ne hnames)
    | cons t b =>
      rw [← components_intercalate (List.cons_ne_nil s a) hnames, join_inj.mp h,
        components_intercalate (List.cons_ne_nil t b) hnames']

/-! ### Extensions -/

theorem extension?_of_notMem {name : String} (h : '.' ∉ name.toList) : extension? name = none := by
  have hdrop : name.toList.reverse.dropWhile (· != '.') = [] := by
    rw [List.dropWhile_eq_nil_iff]
    exact fun c hc => bne_iff_ne.mpr fun hdot => h (hdot ▸ List.mem_reverse.mp hc)
  simp only [extension?, hdrop]

/-- A name cut at its last dot. -/
theorem extension?_dot (front : List Char) {back : List Char} (h : '.' ∉ back) :
    extension? (String.ofList (front ++ '.' :: back)) =
      if front = [] then none else some (String.ofList back) := by
  have hback : ∀ c ∈ back.reverse, (c != '.') = true := fun c hc =>
    bne_iff_ne.mpr fun hdot => h (hdot ▸ List.mem_reverse.mp hc)
  have hreverse : (front ++ '.' :: back).reverse = back.reverse ++ '.' :: front.reverse := by simp
  have hdrop : (front ++ '.' :: back).reverse.dropWhile (· != '.') = '.' :: front.reverse := by
    rw [hreverse, List.dropWhile_append_of_pos hback]
    rfl
  have htake : (front ++ '.' :: back).reverse.takeWhile (· != '.') = back.reverse := by
    rw [hreverse, List.takeWhile_append_of_pos hback]
    exact List.append_nil _
  simp only [extension?, String.toList_ofList, hdrop, htake, List.reverse_reverse]
  cases hfront : front.reverse with
  | nil => rw [if_pos (List.reverse_eq_nil_iff.mp hfront)]
  | cons c rest =>
    rw [if_neg]
    rintro rfl
    cases hfront

/-- **The extension of a name** is what stands behind its last dot, if something stands in front of
that dot. -/
theorem extension?_eq_some_iff {name found : String} : extension? name = some found ↔
    ∃ stem, name = stem ++ "." ++ found ∧ stem ≠ "" ∧ '.' ∉ found.toList := by
  constructor
  · intro h
    by_cases hdot : '.' ∈ name.toList.reverse
    · obtain ⟨back, front, hcut, hback⟩ := List.eq_append_cons_of_mem hdot
      have hname : name = String.ofList (front.reverse ++ '.' :: back.reverse) := by
        rw [← String.ofList_toList (s := name), ← List.reverse_reverse name.toList, hcut]
        simp
      have hback' : '.' ∉ back.reverse := fun hmem => hback (List.mem_reverse.mp hmem)
      rw [hname, extension?_dot _ hback'] at h
      split_ifs at h with hfront
      obtain rfl := Option.some.inj h
      refine ⟨String.ofList front.reverse, ?_, fun hnil => hfront ?_, by simpa using hback⟩
      · rw [hname, ← String.toList_inj]
        simp
      · rw [← String.toList_ofList (l := front.reverse), hnil]
        rfl
    · rw [extension?_of_notMem fun hmem => hdot (List.mem_reverse.mpr hmem)] at h
      cases h
  · rintro ⟨stem, rfl, hstem, hfound⟩
    have hcut := extension?_dot stem.toList hfound
    have hname : String.ofList (stem.toList ++ '.' :: found.toList) = stem ++ "." ++ found := by
      rw [← String.toList_inj]
      simp
    have hne : stem.toList ≠ [] := fun hnil => hstem (String.toList_eq_nil_iff.mp hnil)
    rwa [hname, if_neg hne, String.ofList_toList] at hcut

/-- **A name with one of the extensions**, in any case of its letters. -/
def HasExtension (extensions : List String) (name : String) : Prop :=
  ∃ stem found, name = stem ++ "." ++ found ∧ stem ≠ "" ∧ '.' ∉ found.toList ∧
    ∃ extension ∈ extensions, sameButCase found extension = true

theorem hasExtension_iff {extensions : List String} {name : String} :
    hasExtension extensions name = true ↔ HasExtension extensions name := by
  rw [hasExtension, Option.any_eq_true]
  constructor
  · rintro ⟨found, hfound, hany⟩
    obtain ⟨stem, hname, hstem, hdot⟩ := extension?_eq_some_iff.mp hfound
    exact ⟨stem, found, hname, hstem, hdot, List.any_eq_true.mp hany⟩
  · rintro ⟨stem, found, hname, hstem, hdot, hany⟩
    exact ⟨found, extension?_eq_some_iff.mpr ⟨stem, hname, hstem, hdot⟩, List.any_eq_true.mpr hany⟩

theorem HasExtension.mono {extensions more : List String} (h : extensions ⊆ more) {name : String}
    (hname : HasExtension extensions name) : HasExtension more name := by
  obtain ⟨stem, found, hcut, hstem, hdot, extension, hmem, hsame⟩ := hname
  exact ⟨stem, found, hcut, hstem, hdot, extension, h hmem, hsame⟩

end MarkupTrim.Files
