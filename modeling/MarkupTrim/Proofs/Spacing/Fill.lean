import Mathlib.Data.List.Basic
import Mathlib.Tactic.Common

/-! # Filling gaps

`fill gap before cs` puts one space into each place of `cs` that `gap` says is one; `gap` is asked
with all that stands in front of the place (`before` included) and all that follows it.

* cutting: a text is filled part by part, each part with the other in view (`fill_append`); a cut of
  a filled text is a cut of the text, or stands right behind a new space (`cut_fill`);
* comparing: if no gap is in front of a space, two ways of filling give the same text only where
  they have the same gaps (`fill_append_eq_iff`), so nothing is filled in iff there is no gap
  (`fill_eq_self_iff`);
* filling twice: by two rules in turn is by one rule (`fill_fill`);
* what stays: the last character (`getLast?_fill`), all but spaces (`filter_fill`), and no run
  without spaces is new (`suffix_of_suffix_fill`). -/

namespace MarkupTrim.Spacing

/-- The text `cs` behind `before`, with one space in each gap. -/
def fill (gap : List Char → List Char → Bool) (before : List Char) : List Char → List Char
  | [] => []
  | c :: cs =>
    (if gap before (c :: cs) then [' '] else []) ++ c :: fill gap (before ++ [c]) cs

variable {gap gap' : List Char → List Char → Bool}

/-- One space where something holds. -/
def spaceIf (p : Prop) [Decidable p] : List Char := if p then [' '] else []

theorem spaceIf_pos {p : Prop} [Decidable p] (h : p) : spaceIf p = [' '] := if_pos h

theorem spaceIf_neg {p : Prop} [Decidable p] (h : ¬ p) : spaceIf p = [] := if_neg h

theorem spaceIf_cases (p : Prop) [Decidable p] : spaceIf p = [] ∨ spaceIf p = [' '] ∧ p := by
  by_cases h : p
  · exact Or.inr ⟨spaceIf_pos h, h⟩
  · exact Or.inl (spaceIf_neg h)

theorem spaceIf_congr {p q : Prop} [Decidable p] [Decidable q] (h : p ↔ q) :
    spaceIf p = spaceIf q := by
  unfold spaceIf
  simp only [h]

theorem toList_ite_space (p : Prop) [Decidable p] :
    (if p then " " else "").toList = spaceIf p := apply_ite String.toList _ _ _

theorem filter_spaceIf (p : Prop) [Decidable p] : (spaceIf p).filter (· ≠ ' ') = [] := by
  unfold spaceIf
  split_ifs <;> rfl

theorem eq_of_mem_spaceIf {p : Prop} [Decidable p] {c : Char} (h : c ∈ spaceIf p) : c = ' ' := by
  unfold spaceIf at h
  split_ifs at h
  · exact List.mem_singleton.mp h
  · cases h

@[simp] theorem fill_nil (before : List Char) : fill gap before [] = [] := rfl

theorem fill_cons (before : List Char) (c : Char) (cs : List Char) :
    fill gap before (c :: cs) =
      spaceIf (gap before (c :: cs) = true) ++ c :: fill gap (before ++ [c]) cs := rfl

theorem fill_cons_of_gap {before : List Char} {c : Char} {cs : List Char}
    (h : gap before (c :: cs) = true) :
    fill gap before (c :: cs) = ' ' :: c :: fill gap (before ++ [c]) cs := by
  rw [fill_cons, spaceIf_pos h]; rfl

theorem fill_cons_of_not_gap {before : List Char} {c : Char} {cs : List Char}
    (h : gap before (c :: cs) = false) :
    fill gap before (c :: cs) = c :: fill gap (before ++ [c]) cs := by
  rw [fill_cons, spaceIf_neg (by simp [h])]; rfl

/-! ### Cutting -/

/-- **A text is filled part by part**, each with the other in view. -/
theorem fill_append (before as bs : List Char) :
    fill gap before (as ++ bs) =
      fill (fun x y => gap x (y ++ bs)) before as ++ fill gap (before ++ as) bs := by
  induction as generalizing before with
  | nil => simp
  | cons a as ih => simp [fill_cons, ih]

theorem fill_before (p before cs : List Char) :
    fill gap (p ++ before) cs = fill (fun x y => gap (p ++ x) y) before cs := by
  induction cs generalizing before with
  | nil => rfl
  | cons c cs ih => rw [fill_cons, fill_cons, List.append_assoc, ih]

/-- Where a cut of the filled text comes from: a cut of the text, or the place behind a new space. -/
def CutOf (gap : List Char → List Char → Bool) (before cs us vs : List Char) : Prop :=
  ∃ as bs, cs = as ++ bs ∧
    ((us = fill (fun x y => gap x (y ++ bs)) before as ∧ vs = fill gap (before ++ as) bs) ∨
      ∃ c ds, bs = c :: ds ∧ us = fill (fun x y => gap x (y ++ bs)) before as ++ [' '] ∧
        vs = c :: fill gap (before ++ as ++ [c]) ds)

theorem CutOf.cons {before cs us vs : List Char} {c : Char}
    (h : CutOf gap (before ++ [c]) cs us vs) :
    CutOf gap before (c :: cs) (spaceIf (gap before (c :: cs) = true) ++ c :: us) vs := by
  obtain ⟨as, bs, rfl, hcut⟩ := h
  refine ⟨c :: as, bs, rfl, ?_⟩
  rcases hcut with ⟨rfl, rfl⟩ | ⟨d, ds, rfl, rfl, rfl⟩
  · exact Or.inl ⟨rfl, by simp⟩
  · exact Or.inr ⟨d, ds, rfl, by simp [fill_cons], by simp⟩

/-- **A cut of a filled text** is a cut of the text, or stands right behind a new space. -/
theorem cut_fill {before cs us vs : List Char} (h : fill gap before cs = us ++ vs) :
    CutOf gap before cs us vs := by
  induction cs generalizing before us with
  | nil =>
    obtain ⟨rfl, rfl⟩ := List.append_eq_nil_iff.mp h.symm
    exact ⟨[], [], rfl, Or.inl ⟨rfl, rfl⟩⟩
  | cons c cs ih =>
    rcases us with _ | ⟨u, us⟩
    · exact ⟨[], c :: cs, rfl, Or.inl ⟨rfl, by simpa using h.symm⟩⟩
    rcases hg : gap before (c :: cs)
    · rw [fill_cons_of_not_gap hg] at h
      obtain ⟨rfl, hus⟩ := List.cons.inj h
      have hcut := (ih hus).cons
      rw [hg] at hcut
      exact hcut
    · rw [fill_cons_of_gap hg] at h
      obtain ⟨hu, hus⟩ := List.cons.inj h
      rw [← hu]
      rcases us with _ | ⟨d, us⟩
      · -- The cut parts `c` from its space.
        exact ⟨[], c :: cs, rfl, Or.inr ⟨c, cs, rfl, rfl, by simpa using hus.symm⟩⟩
      · obtain ⟨rfl, htail⟩ := List.cons.inj hus
        have hcut := (ih htail).cons
        rw [spaceIf_pos hg] at hcut
        exact hcut

/-! ### Comparing -/

theorem forall_cuts_cons {c : Char} {cs : List Char} {P : List Char → List Char → Prop} :
    (∀ as bs, c :: cs = as ++ bs → bs ≠ [] → P as bs) ↔
      P [] (c :: cs) ∧ ∀ as bs, cs = as ++ bs → bs ≠ [] → P (c :: as) bs := by
  constructor
  · intro h
    exact ⟨h [] _ rfl (by simp), fun as bs he hbs => h (c :: as) bs (by rw [he]; rfl) hbs⟩
  · rintro ⟨h, hcs⟩ as bs he hbs
    rcases as with _ | ⟨a, as⟩
    · rw [List.nil_append] at he
      rw [← he]; exact h
    · obtain ⟨rfl, htail⟩ := List.cons.inj he
      exact hcs as bs htail hbs

/-- Two rules agree at every place of `cs` behind `before`. -/
def Agree (gap gap' : List Char → List Char → Bool) (before cs : List Char) : Prop :=
  ∀ as bs, cs = as ++ bs → bs ≠ [] → gap (before ++ as) bs = gap' (before ++ as) bs

theorem agree_cons {before : List Char} {c : Char} {cs : List Char} :
    Agree gap gap' before (c :: cs) ↔
      gap before (c :: cs) = gap' before (c :: cs) ∧ Agree gap gap' (before ++ [c]) cs := by
  unfold Agree
  rw [forall_cuts_cons]
  simp

theorem fill_congr {before cs : List Char} (h : Agree gap gap' before cs) :
    fill gap before cs = fill gap' before cs := by
  induction cs generalizing before with
  | nil => rfl
  | cons c cs ih =>
    obtain ⟨hc, hcs⟩ := agree_cons.mp h
    rw [fill_cons, fill_cons, hc, ih hcs]

/-- No gap of the rule is in front of a space. -/
def NotBeforeSpace (gap : List Char → List Char → Bool) : Prop :=
  ∀ before cs, gap before (' ' :: cs) = false

/-- **Filled texts are equal iff they are filled in the same gaps**, and go on equally. -/
theorem fill_append_eq_iff (hgap : NotBeforeSpace gap) (hgap' : NotBeforeSpace gap')
    {before cs xs ys : List Char} :
    fill gap before cs ++ xs = fill gap' before cs ++ ys ↔
      Agree gap gap' before cs ∧ xs = ys := by
  induction cs generalizing before with
  | nil => simp [Agree]
  | cons c cs ih =>
    rw [agree_cons]
    rcases hg : gap before (c :: cs) <;> rcases hg' : gap' before (c :: cs)
    · rw [fill_cons_of_not_gap hg, fill_cons_of_not_gap hg']
      simp [ih]
    · rw [fill_cons_of_not_gap hg, fill_cons_of_gap hg']
      have hc : c ≠ ' ' := by rintro rfl; rw [hgap'] at hg'; cases hg'
      simp [hc]
    · rw [fill_cons_of_gap hg, fill_cons_of_not_gap hg']
      have hc : ' ' ≠ c := by rintro rfl; rw [hgap] at hg; cases hg
      simp [hc]
    · rw [fill_cons_of_gap hg, fill_cons_of_gap hg']
      simp [ih]

theorem fill_eq_iff (hgap : NotBeforeSpace gap) (hgap' : NotBeforeSpace gap')
    {before cs : List Char} :
    fill gap before cs = fill gap' before cs ↔ Agree gap gap' before cs := by
  have h : fill gap before cs ++ [] = fill gap' before cs ++ [] ↔ _ :=
    fill_append_eq_iff hgap hgap'
  simpa using h

theorem fill_false (before cs : List Char) : fill (fun _ _ => false) before cs = cs := by
  induction cs generalizing before with
  | nil => rfl
  | cons c cs ih => rw [fill_cons_of_not_gap rfl, ih]

theorem fill_eq_self {before cs : List Char}
    (h : ∀ as bs, cs = as ++ bs → bs ≠ [] → gap (before ++ as) bs = false) :
    fill gap before cs = cs := by
  have h : Agree gap (fun _ _ => false) before cs := h
  rw [fill_congr h, fill_false]

/-- **Nothing is filled in iff there is no gap.** -/
theorem fill_eq_self_iff (hgap : NotBeforeSpace gap) {before cs : List Char} :
    fill gap before cs = cs ↔
      ∀ as bs, cs = as ++ bs → bs ≠ [] → gap (before ++ as) bs = false := by
  have h : fill gap before cs = fill (fun _ _ => false) before cs ↔ _ :=
    fill_eq_iff hgap fun _ _ => rfl
  rwa [fill_false] at h

/-! ### Filling twice -/

/-- What stands in front of a place, filled with all that follows in view. -/
def filledFront (gap : List Char → List Char → Bool) (before ahead : List Char) : List Char :=
  fill (fun x y => gap x (y ++ ahead)) [] before

theorem filledFront_append (as bs cs : List Char) :
    filledFront gap (as ++ bs) cs =
      filledFront gap as (bs ++ cs) ++ fill (fun x y => gap x (y ++ cs)) as bs := by
  unfold filledFront
  rw [fill_append, List.nil_append]
  simp only [List.append_assoc]

theorem filledFront_concat (before : List Char) (c : Char) (cs : List Char) :
    filledFront gap (before ++ [c]) cs =
      filledFront gap before (c :: cs) ++ (spaceIf (gap before (c :: cs) = true) ++ [c]) :=
  filledFront_append before [c] cs

/-- The rule of two rules in turn: the second is asked with what the first has filled. -/
def inTurn (first second : List Char → List Char → Bool) (before ahead : List Char) : Bool :=
  first before ahead || second (filledFront first before ahead) (fill first before ahead)

/-- **Filling twice is filling once**, if the second rule has no gap next to a space. -/
theorem fill_fill (hahead : NotBeforeSpace gap')
    (hbehind : ∀ before cs, gap' (before ++ [' ']) cs = false) (before cs : List Char) :
    fill gap' (filledFront gap before cs) (fill gap before cs) =
      fill (inTurn gap gap') before cs := by
  induction cs generalizing before with
  | nil => rfl
  | cons c cs ih =>
    have ih := ih (before ++ [c])
    rw [filledFront_concat] at ih
    rcases hg : gap before (c :: cs)
    · have hturn : inTurn gap gap' before (c :: cs) =
          gap' (filledFront gap before (c :: cs)) (c :: fill gap (before ++ [c]) cs) := by
        rw [inTurn, hg, fill_cons_of_not_gap hg, Bool.false_or]
      rw [hg] at ih
      rw [fill_cons_of_not_gap hg, fill_cons, fill_cons, hturn, ← ih]
      rfl
    · have hturn : inTurn gap gap' before (c :: cs) = true := by rw [inTurn, hg, Bool.true_or]
      rw [spaceIf_pos hg, ← List.append_assoc] at ih
      rw [fill_cons_of_gap hg, fill_cons_of_not_gap (hahead _ _), fill_cons_of_not_gap (hbehind _ _),
        fill_cons_of_gap hturn, ih]

/-! ### What stays -/

theorem getLast?_fill (before cs : List Char) : (fill gap before cs).getLast? = cs.getLast? := by
  induction cs generalizing before with
  | nil => rfl
  | cons c cs ih =>
    rw [fill_cons, List.getLast?_append, List.getLast?_cons, List.getLast?_cons, ih]; rfl

theorem filter_fill (before cs : List Char) :
    (fill gap before cs).filter (· ≠ ' ') = cs.filter (· ≠ ' ') := by
  induction cs generalizing before with
  | nil => rfl
  | cons c cs ih =>
    rw [fill_cons, List.filter_append, filter_spaceIf, List.nil_append, List.filter_cons,
      List.filter_cons, ih]

theorem fill_eq_self_of_notMem {before cs : List Char} (h : ' ' ∉ fill gap before cs) :
    fill gap before cs = cs := by
  induction cs generalizing before with
  | nil => rfl
  | cons c cs ih =>
    rcases hg : gap before (c :: cs)
    · rw [fill_cons_of_not_gap hg] at h ⊢
      rw [ih fun hm => h (List.mem_cons_of_mem _ hm)]
    · rw [fill_cons_of_gap hg] at h
      exact absurd List.mem_cons_self h

/-- A filled text starts with a run without spaces only if the text does. -/
theorem exists_of_fill_eq_append {before cs us vs : List Char} (hus : ' ' ∉ us)
    (h : fill gap before cs = us ++ vs) :
    ∃ bs, cs = us ++ bs ∧ vs = fill gap (before ++ us) bs := by
  obtain ⟨as, bs, rfl, ⟨rfl, rfl⟩ | ⟨c, ds, rfl, rfl, -⟩⟩ := cut_fill h
  · rw [fill_eq_self_of_notMem hus]
    exact ⟨bs, rfl, rfl⟩
  · exact absurd (List.mem_append_right _ (List.mem_singleton.mpr rfl)) hus

/-- A filled text ends in a run without spaces only if the text does. -/
theorem suffix_of_suffix_fill {before cs w : List Char} (hw : ' ' ∉ w)
    (h : w <:+ fill gap before cs) : w <:+ cs := by
  obtain ⟨us, h⟩ := h
  obtain ⟨as, bs, rfl, ⟨-, rfl⟩ | ⟨c, ds, rfl, -, rfl⟩⟩ := cut_fill h.symm
  · rw [fill_eq_self_of_notMem hw]
    exact List.suffix_append _ _
  · rw [fill_eq_self_of_notMem fun hm => hw (List.mem_cons_of_mem _ hm)]
    exact List.suffix_append _ _

end MarkupTrim.Spacing
