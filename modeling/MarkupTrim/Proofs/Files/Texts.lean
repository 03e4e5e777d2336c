import MarkupTrim.Proofs.Files.Lookup
import Mathlib.Logic.Function.Iterate
import Mathlib.Data.List.Count

/-! # Texts of files

A path has a text if it leads to a file that may be read and whose contents are UTF-8. To replace the
text of a file by `f` of it, any number of times, is to rewrite its contents (`rewrite`); contents
that are no text stay as they are. When files have been rewritten (`Tree.rewritten`), nothing else is
changed, so a path leads where it led before, and it has a text iff it had one before
(`Tree.isSome_text?_rewritten`). Rewritings add up (`Tree.rewritten_rewritten`). -/

namespace MarkupTrim.Files

/-! ### Contents -/

variable {f : String → String}

theorem fromUTF8?_eq_some_iff {contents : ByteArray} {text : String} :
    String.fromUTF8? contents = some text ↔ contents = text.toUTF8 := by
  unfold String.fromUTF8?
  constructor
  · intro h
    split_ifs at h with hv
    cases h
    rfl
  · rintro rfl
    exact dif_pos text.isValidUTF8

theorem fromUTF8?_toUTF8 (text : String) : String.fromUTF8? text.toUTF8 = some text :=
  fromUTF8?_eq_some_iff.mpr rfl

/-- Contents whose text was replaced by `f` of it that many times. -/
def rewrite (f : String → String) (count : ℕ) (contents : ByteArray) : ByteArray :=
  match String.fromUTF8? contents with
  | some text => (f^[count] text).toUTF8
  | none => contents

theorem rewrite_toUTF8 (count : ℕ) (text : String) :
    rewrite f count text.toUTF8 = (f^[count] text).toUTF8 := by
  rw [rewrite, fromUTF8?_toUTF8]

theorem rewrite_of_none {contents : ByteArray} (h : String.fromUTF8? contents = none) (count : ℕ) :
    rewrite f count contents = contents := by
  rw [rewrite, h]

theorem rewrite_zero (contents : ByteArray) : rewrite f 0 contents = contents := by
  cases h : String.fromUTF8? contents with
  | none => exact rewrite_of_none h 0
  | some text =>
    obtain rfl := fromUTF8?_eq_some_iff.mp h
    exact rewrite_toUTF8 0 text

theorem rewrite_rewrite (first more : ℕ) (contents : ByteArray) :
    rewrite f more (rewrite f first contents) = rewrite f (first + more) contents := by
  cases h : String.fromUTF8? contents with
  | none => rw [rewrite_of_none h, rewrite_of_none h, rewrite_of_none h]
  | some text =>
    obtain rfl := fromUTF8?_eq_some_iff.mp h
    rw [rewrite_toUTF8, rewrite_toUTF8, rewrite_toUTF8, ← Function.iterate_add_apply, Nat.add_comm]

theorem isSome_fromUTF8?_rewrite (count : ℕ) (contents : ByteArray) :
    (String.fromUTF8? (rewrite f count contents)).isSome =
      (String.fromUTF8? contents).isSome := by
  cases h : String.fromUTF8? contents with
  | none => rw [rewrite_of_none h, h]
  | some text =>
    obtain rfl := fromUTF8?_eq_some_iff.mp h
    rw [rewrite_toUTF8, fromUTF8?_toUTF8]
    rfl

/-- Only contents that are a text can be rewritten. -/
theorem rewrite_of_ne {contents : ByteArray} (h : ∀ text : String, contents ≠ text.toUTF8)
    (count : ℕ) : rewrite f count contents = contents := by
  refine rewrite_of_none ?_ count
  by_contra hne
  obtain ⟨text, htext⟩ := Option.ne_none_iff_exists'.mp hne
  exact h text (fromUTF8?_eq_some_iff.mp htext)

namespace Tree

/-! ### Texts -/

variable {tree tree' : Tree} {path : String}

/-- The text of the file that a path leads to. -/
def text? (tree : Tree) (path : String) : Option String :=
  match tree.read path with
  | .ok contents => String.fromUTF8? contents
  | .error _ => none

theorem text?_eq_some_iff {text : String} : tree.text? path = some text ↔
    ∃ location number, tree.locate .find path = .ok location ∧
      tree.node? location = some (.file number) ∧ tree.refusal? location .read = none ∧
      tree.contents number = text.toUTF8 := by
  rw [← read_eq_ok_iff, text?]
  cases h : tree.read path with
  | error cause => simp
  | ok contents => simp [fromUTF8?_eq_some_iff]

theorem isSome_text?_iff : (tree.text? path).isSome = true ↔
    ∃ location number, tree.locate .find path = .ok location ∧
      tree.node? location = some (.file number) ∧ tree.refusal? location .read = none ∧
      (String.fromUTF8? (tree.contents number)).isSome = true := by
  simp only [Option.isSome_iff_exists, text?_eq_some_iff, fromUTF8?_eq_some_iff]
  constructor
  · rintro ⟨text, location, number, hl, hf, hr, htext⟩
    exact ⟨location, number, hl, hf, hr, text, htext⟩
  · rintro ⟨location, number, hl, hf, hr, text, htext⟩
    exact ⟨text, location, number, hl, hf, hr, htext⟩

/-- The paths up to the first that has no text. -/
def readable (tree : Tree) (paths : List String) : List String :=
  paths.takeWhile fun path => (tree.text? path).isSome

theorem readable_cons_of_none (h : tree.text? path = none) (rest : List String) :
    tree.readable (path :: rest) = [] := by
  rw [readable, List.takeWhile_cons_of_neg (by simp [h])]

theorem readable_cons_of_some {text : String} (h : tree.text? path = some text)
    (rest : List String) : tree.readable (path :: rest) = path :: tree.readable rest := by
  rw [readable, List.takeWhile_cons_of_pos (by simp [h]), readable]

theorem readable_eq_iff {paths : List String} :
    tree.readable paths = paths ↔ (tree.readable paths).length = paths.length :=
  ⟨congrArg List.length, (List.takeWhile_prefix _).eq_of_length⟩

/-- The number of the file that a path leads to. -/
def number? (tree : Tree) (path : String) : Option ℕ :=
  match tree.locate .find path with
  | .ok location =>
    match tree.node? location with
    | some (.file number) => some number
    | _ => none
  | .error _ => none

theorem number?_eq_some {location : Location} {number : ℕ}
    (hl : tree.locate .find path = .ok location)
    (hf : tree.node? location = some (.file number)) : tree.number? path = some number := by
  rw [number?, hl]
  dsimp only
  rw [hf]

/-- How many of the paths lead to the file with a number. -/
def visits (tree : Tree) (paths : List String) (number : ℕ) : ℕ :=
  paths.countP fun path => tree.number? path = some number

theorem visits_cons (path : String) (rest : List String) (number : ℕ) :
    tree.visits (path :: rest) number = tree.visits [path] number + tree.visits rest number := by
  rw [visits, visits, visits, ← List.countP_append, List.singleton_append]

/-! ### Rewriting -/

/-- The tree with each file rewritten as many times as `count` says. -/
def rewritten (f : String → String) (count : ℕ → ℕ) (tree : Tree) : Tree :=
  { tree with contents := fun number => rewrite f (count number) (tree.contents number) }

theorem rewritten_zero (tree : Tree) : tree.rewritten f (fun _ => 0) = tree := by
  simp [rewritten, rewrite_zero]

theorem rewritten_rewritten (first more : ℕ → ℕ) (tree : Tree) :
    (tree.rewritten f first).rewritten f more =
      tree.rewritten f fun number => first number + more number := by
  simp [rewritten, rewrite_rewrite]

theorem locate_rewritten (count : ℕ → ℕ) (tree : Tree) (purpose : Purpose) (path : String) :
    (tree.rewritten f count).locate purpose path = tree.locate purpose path :=
  locate_contents tree _ purpose path

theorem number?_rewritten (count : ℕ → ℕ) (tree : Tree) (path : String) :
    (tree.rewritten f count).number? path = tree.number? path := by
  rw [number?, locate_rewritten]
  rfl

theorem visits_rewritten (count : ℕ → ℕ) (tree : Tree) (paths : List String) (number : ℕ) :
    (tree.rewritten f count).visits paths number = tree.visits paths number := by
  simp only [visits, number?_rewritten]

theorem isSome_text?_rewritten (count : ℕ → ℕ) (tree : Tree) (path : String) :
    ((tree.rewritten f count).text? path).isSome = (tree.text? path).isSome := by
  have htext (number : ℕ) : (String.fromUTF8? ((tree.rewritten f count).contents number)).isSome =
      (String.fromUTF8? (tree.contents number)).isSome := isSome_fromUTF8?_rewrite _ _
  rw [Bool.eq_iff_iff, isSome_text?_iff, isSome_text?_iff]
  simp only [locate_rewritten, htext]
  rfl

theorem readable_rewritten (count : ℕ → ℕ) (tree : Tree) (paths : List String) :
    (tree.rewritten f count).readable paths = tree.readable paths := by
  rw [readable, readable, funext (isSome_text?_rewritten count tree)]

/-- A text that was read from the path can be replaced. -/
def Rewritable (tree : Tree) (path : String) : Prop :=
  ∀ text, tree.text? path = some text → ∀ contents, ∃ tree', tree.write path contents = .ok tree'

theorem rewritable_iff : tree.Rewritable path ↔ ∀ location, tree.locate .find path = .ok location →
    (tree.text? path).isSome = true → tree.refusal? location .write = none := by
  constructor
  · intro h location hl hsome
    obtain ⟨text, htext⟩ := Option.isSome_iff_exists.mp hsome
    obtain ⟨_, number, hl', hf, -⟩ := text?_eq_some_iff.mp htext
    obtain rfl := Except.ok.inj (hl'.symm.trans hl)
    obtain ⟨_, hwrite⟩ := h text htext text.toUTF8
    obtain ⟨_, hcreate, ⟨-, -, hright, -⟩ | ⟨hnone, -⟩⟩ := write_eq_ok_iff.mp hwrite
    · exact Except.ok.inj ((locate_create_of_file hl' hf).symm.trans hcreate) ▸ hright
    · rw [← Except.ok.inj ((locate_create_of_file hl' hf).symm.trans hcreate), hf] at hnone
      cases hnone
  · intro h text htext contents
    obtain ⟨location, number, hl, hf, -⟩ := text?_eq_some_iff.mp htext
    exact ⟨_, write_of_file hl hf (h location hl (by simp [htext])) contents⟩

theorem Rewritable.rewritten (h : tree.Rewritable path) (count : ℕ → ℕ) :
    (tree.rewritten f count).Rewritable path := by
  rw [rewritable_iff] at h ⊢
  simp only [locate_rewritten, isSome_text?_rewritten]
  exact h

/-- What is written back to the path that it was read from is one rewriting of that file. -/
theorem write_of_text? {text : String} (hw : tree.Rewritable path)
    (h : tree.text? path = some text) :
    tree.write path (f text).toUTF8 = .ok (tree.rewritten f (tree.visits [path])) := by
  obtain ⟨location, number, hl, hf, -, htext⟩ := text?_eq_some_iff.mp h
  rw [write_of_file hl hf (rewritable_iff.mp hw location hl (by simp [h]))]
  have hnumber := number?_eq_some hl hf
  have hcontents : (tree.fill number (f text).toUTF8).contents =
      (tree.rewritten f (tree.visits [path])).contents := by
    funext other
    change (if other = number then (f text).toUTF8 else tree.contents other) =
      rewrite f (tree.visits [path] other) (tree.contents other)
    by_cases hother : other = number
    · subst hother
      have hone : tree.visits [path] other = 1 := by simp [visits, hnumber]
      rw [if_pos rfl, hone, htext, rewrite_toUTF8]
      rfl
    · have hzero : tree.visits [path] other = 0 := by simpa [visits, hnumber] using Ne.symm hother
      rw [if_neg hother, hzero, rewrite_zero]
  exact congrArg (fun contents => Except.ok { tree with contents }) hcontents

end Tree

end MarkupTrim.Files
