import MarkupTrim.Files.Tree
import Mathlib.Data.List.Infix
import Mathlib.Tactic.Common

/-! # Look-ups

What one component of a path can come to is told by the lemmas on `Tree.step`. A look-up that
succeeds goes from component to component (`Tree.LeadsTo`), and what holds of look-ups goes by
induction on that.

To write is to look a path up once more, with another purpose, and the two purposes agree. A path
that leads to a file leads there also when the file is to be written (`locate_create_of_file`), and
what was written is found where the path leads from then on (`write_spec`). -/

namespace MarkupTrim.Files

namespace Tree

variable {tree tree' : Tree} {purpose : Purpose} {here next location : Location} {name : String}
  {target : String} {path rest : List String} {links number : ℕ}

/-! ### Directories on the way -/

theorem node?_of_isPrefix (h : location <+: tree.current) :
    tree.node? location = some .directory :=
  if_pos (List.isPrefixOf_iff_prefix.mpr h)

theorem node?_nil (tree : Tree) : tree.node? [] = some .directory :=
  node?_of_isPrefix List.nil_prefix

/-- The directory `here` and all those on the way to it are there. -/
def Entered (tree : Tree) (here : Location) : Prop :=
  ∀ front, front <+: here → tree.node? front = some .directory

theorem entered_current : tree.Entered tree.current := fun _ => node?_of_isPrefix

theorem entered_nil : tree.Entered [] := by
  intro front h
  rw [List.prefix_nil.mp h]
  exact tree.node?_nil

theorem Entered.node? (h : tree.Entered here) : tree.node? here = some .directory :=
  h here List.prefix_rfl

theorem Entered.parent (h : tree.Entered here) : tree.Entered here.parent :=
  fun front hfront => h front (hfront.trans (List.dropLast_prefix here))

theorem Entered.concat (h : tree.Entered here)
    (hn : tree.node? (here ++ [name]) = some .directory) : tree.Entered (here ++ [name]) := by
  intro front hfront
  rcases List.prefix_concat_iff.mp hfront with rfl | hfront
  · exact hn
  · exact h front hfront

theorem Entered.start (h : tree.Entered here) (path : String) :
    tree.Entered (start here path) := by
  unfold Files.start
  split_ifs
  · exact entered_nil
  · exact h

/-! ### One component -/

/-- The component is a name, and the directory may be entered to look for it. No slashes stand
behind it that keep it from being made. -/
structure Sought (tree : Tree) (purpose : Purpose) (here : Location) (name : String)
    (rest : List String) : Prop where
  ne_empty : name ≠ ""
  ne_dot : name ≠ "."
  ne_up : name ≠ ".."
  enter : tree.refusal? here .enter = none
  slashes : ¬ (purpose = .create ∧ rest ≠ [] ∧ rest.all (· == "") = true)

/-- **What a component can come to**, unless it is refused. -/
inductive StepsTo (tree : Tree) (purpose : Purpose) (here : Location) (name : String)
    (rest : List String) : Step → Prop
  | slash : name = "" → StepsTo tree purpose here name rest (.go here)
  | dot : name = "." → tree.refusal? here .enter = none →
      StepsTo tree purpose here name rest (.go here)
  | up : name = ".." → tree.refusal? here .enter = none →
      StepsTo tree purpose here name rest (.go here.parent)
  | directory : Sought tree purpose here name rest →
      tree.node? (here ++ [name]) = some .directory →
      StepsTo tree purpose here name rest (.go (here ++ [name]))
  | file {number : ℕ} : Sought tree purpose here name rest →
      tree.node? (here ++ [name]) = some (.file number) → rest = [] →
      StepsTo tree purpose here name rest (.arrive (here ++ [name]))
  | made : Sought tree purpose here name rest → tree.node? (here ++ [name]) = none →
      purpose = .create → rest = [] → tree.refusal? here .write = none →
      StepsTo tree purpose here name rest (.arrive (here ++ [name]))
  | link {target : String} : Sought tree purpose here name rest →
      tree.node? (here ++ [name]) = some (.link target) →
      StepsTo tree purpose here name rest (.follow target)

theorem Sought.step (h : Sought tree purpose here name rest) :
    tree.step purpose here name rest = tree.stepName purpose here name rest := by
  rw [Tree.step, if_neg h.ne_empty, h.enter]
  dsimp only
  rw [if_neg h.ne_dot, if_neg h.ne_up, if_neg h.slashes]

theorem StepsTo.step {found : Step} (h : StepsTo tree purpose here name rest found) :
    tree.step purpose here name rest = found := by
  cases h with
  | slash hname => rw [Tree.step, if_pos hname]
  | dot hname henter => subst hname; simp [Tree.step, henter]
  | up hname henter => subst hname; simp [Tree.step, henter]
  | directory hs hnode => rw [hs.step, stepName, hnode]
  | file hs hnode hrest => rw [hs.step, stepName, hnode]; exact if_pos hrest
  | made hs hnode hcreate hrest hwrite =>
    rw [hs.step, stepName, hnode]
    dsimp only
    rw [stepMissing, if_pos ⟨hcreate, hrest⟩, hwrite]
  | link hs hnode => rw [hs.step, stepName, hnode]

theorem Sought.stepsTo {found : Step} (hs : Sought tree purpose here name rest)
    (h : tree.stepName purpose here name rest = found) (hr : ∀ cause, found ≠ .refuse cause) :
    StepsTo tree purpose here name rest found := by
  subst h
  unfold stepName stepMissing at hr ⊢
  cases hnode : tree.node? (here ++ [name]) with
  | none =>
    simp only [hnode] at hr ⊢
    split_ifs at hr ⊢ with hmake
    · cases hwrite : tree.refusal? here .write with
      | some cause => simp [hwrite] at hr
      | none => exact .made hs hnode hmake.1 hmake.2 hwrite
    · simp at hr
  | some node =>
    cases node with
    | directory => exact .directory hs hnode
    | link target => exact .link hs hnode
    | file number =>
      simp only [hnode] at hr ⊢
      split_ifs at hr ⊢ with hrest
      · exact .file hs hnode hrest
      · simp at hr

theorem step_eq_iff {found : Step} (hr : ∀ cause, found ≠ .refuse cause) :
    tree.step purpose here name rest = found ↔ StepsTo tree purpose here name rest found := by
  refine ⟨fun h => ?_, StepsTo.step⟩
  by_cases hname : name = ""
  · rw [step, if_pos hname] at h
    exact h ▸ .slash hname
  cases henter : tree.refusal? here .enter with
  | some cause => simp [step, hname, henter, ← h] at hr
  | none =>
    by_cases hdot : name = "."
    · subst hdot
      obtain rfl : Step.go here = found := by simpa [step, henter] using h
      exact .dot rfl henter
    by_cases hup : name = ".."
    · subst hup
      obtain rfl : Step.go here.parent = found := by simpa [step, henter] using h
      exact .up rfl henter
    by_cases hslashes : purpose = .create ∧ rest ≠ [] ∧ rest.all (· == "") = true
    · obtain rfl : Step.refuse .isDirectory = found := by
        rw [← h, step, if_neg hname, henter]
        dsimp only
        rw [if_neg hdot, if_neg hup, if_pos hslashes]
      exact absurd rfl (hr .isDirectory)
    · have hs : Sought tree purpose here name rest := ⟨hname, hdot, hup, henter, hslashes⟩
      exact hs.stepsTo (hs.step ▸ h) hr

/-- Where a look-up goes on is entered. -/
theorem StepsTo.entered (h : StepsTo tree purpose here name rest (.go next))
    (he : tree.Entered here) : tree.Entered next := by
  cases h with
  | slash => exact he
  | dot => exact he
  | up => exact he.parent
  | directory _ hnode => exact he.concat hnode

/-- The two purposes part only where a look-up fails, and in front of slashes. -/
theorem StepsTo.create {found : Step} (h : StepsTo tree .find here name rest found)
    (hs : ¬ (rest ≠ [] ∧ rest.all (· == "") = true)) :
    StepsTo tree .create here name rest found := by
  have hsought (h : Sought tree .find here name rest) : Sought tree .create here name rest :=
    { h with slashes := fun hslashes => hs hslashes.2 }
  cases h with
  | slash hname => exact .slash hname
  | dot hname henter => exact .dot hname henter
  | up hname henter => exact .up hname henter
  | directory h hnode => exact .directory (hsought h) hnode
  | file h hnode hrest => exact .file (hsought h) hnode hrest
  | made h _ hcreate => cases hcreate
  | link h hnode => exact .link (hsought h) hnode

/-- The second tree is the first with a file at a location, where there was one or nothing. -/
structure Made (tree tree' : Tree) (location : Location) (number : ℕ) : Prop where
  current : tree'.current = tree.current
  refusal? : tree'.refusal? = tree.refusal?
  vacant : tree.node? location = none ∨ ∃ number, tree.node? location = some (.file number)
  node?_self : tree'.node? location = some (.file number)
  node?_ne : ∀ other, other ≠ location → tree'.node? other = tree.node? other

/-- What is neither a file nor vacant stays. -/
theorem Made.node?_eq (hm : Made tree tree' location number) {other : Location} {node : Node}
    (hn : tree.node? other = some node) (hfile : ∀ number, node ≠ .file number) :
    tree'.node? other = some node := by
  refine (hm.node?_ne other ?_).trans hn
  rintro rfl
  obtain hnone | ⟨number, hnumber⟩ := hm.vacant
  · rw [hn] at hnone
    cases hnone
  · rw [hn] at hnumber
    exact hfile number (Option.some.inj hnumber)

/-- What a component came to when a file was to be made, it comes to when the file is there. -/
theorem Made.stepsTo {found : Step} (hm : Made tree tree' location number)
    (h : StepsTo tree .create here name rest found)
    (ha : ∀ arrived, found = .arrive arrived → arrived = location) :
    StepsTo tree' .find here name rest found := by
  have hsought (h : Sought tree .create here name rest) : Sought tree' .find here name rest :=
    { h with enter := hm.refusal? ▸ h.enter, slashes := fun hslashes => by cases hslashes.1 }
  cases h with
  | slash hname => exact .slash hname
  | dot hname henter => exact .dot hname (hm.refusal? ▸ henter)
  | up hname henter => exact .up hname (hm.refusal? ▸ henter)
  | directory h hnode => exact .directory (hsought h) (hm.node?_eq hnode (by simp))
  | file h hnode hrest =>
    obtain rfl := ha _ rfl
    exact .file (hsought h) hm.node?_self hrest
  | made h _ _ hrest =>
    obtain rfl := ha _ rfl
    exact .file (hsought h) hm.node?_self hrest
  | link h hnode => exact .link (hsought h) (hm.node?_eq hnode (by simp))

/-! ### Look-ups that succeed -/

/-- **A look-up that succeeds**: with at most that many links followed, the path leads from one
location to the other. -/
inductive LeadsTo (tree : Tree) (purpose : Purpose) : ℕ → Location → List String → Location → Prop
  | done {links : ℕ} {here : Location} : purpose = .find → LeadsTo tree purpose links here [] here
  | arrive {links : ℕ} {here location : Location} {name : String} {rest : List String} :
      StepsTo tree purpose here name rest (.arrive location) →
      LeadsTo tree purpose links here (name :: rest) location
  | go {links : ℕ} {here next location : Location} {name : String} {rest : List String} :
      StepsTo tree purpose here name rest (.go next) →
      LeadsTo tree purpose links next rest location →
      LeadsTo tree purpose links here (name :: rest) location
  | follow {links : ℕ} {here location : Location} {name target : String} {rest : List String} :
      StepsTo tree purpose here name rest (.follow target) →
      LeadsTo tree purpose links (start here target) (components target ++ rest) location →
      LeadsTo tree purpose (links + 1) here (name :: rest) location

/-- A link is followed if there is one left to follow. -/
theorem resolve_cons (tree : Tree) (purpose : Purpose) (links : ℕ) (here : Location) (name : String)
    (rest : List String) : tree.resolve purpose links here (name :: rest) =
      match tree.step purpose here name rest with
      | .refuse cause => .error cause
      | .arrive location => .ok location
      | .go next => tree.resolve purpose links next rest
      | .follow target =>
        match links with
        | 0 => .error .linkLoop
        | links + 1 =>
          tree.resolve purpose links (start here target) (components target ++ rest) := by
  cases links <;> cases h : tree.step purpose here name rest <;> simp only [resolve, resolveWith, h]

theorem resolve_nil_eq_ok_iff : tree.resolve purpose links here [] = .ok location ↔
    purpose = .find ∧ here = location := by
  cases links <;> cases purpose <;> simp [resolve, resolveWith]

theorem LeadsTo.resolve (h : LeadsTo tree purpose links here path location) :
    tree.resolve purpose links here path = .ok location := by
  induction h with
  | done hfind => exact resolve_nil_eq_ok_iff.mpr ⟨hfind, rfl⟩
  | arrive hstep => rw [resolve_cons, hstep.step]
  | go hstep _ ih => rw [resolve_cons, hstep.step]; exact ih
  | follow hstep _ ih => rw [resolve_cons, hstep.step]; exact ih

theorem leadsTo_of_resolve (h : tree.resolve purpose links here path = .ok location) :
    LeadsTo tree purpose links here path location := by
  induction links using Nat.strongRecOn generalizing here path with
  | ind links ihlinks =>
    induction path generalizing here with
    | nil =>
      obtain ⟨hfind, rfl⟩ := resolve_nil_eq_ok_iff.mp h
      exact .done hfind
    | cons name rest ih =>
      rw [resolve_cons] at h
      cases hstep : tree.step purpose here name rest with
      | refuse cause =>
        rw [hstep] at h
        cases h
      | arrive found =>
        rw [hstep] at h
        cases h
        exact .arrive ((step_eq_iff (by simp)).mp hstep)
      | go next =>
        rw [hstep] at h
        exact .go ((step_eq_iff (by simp)).mp hstep) (ih h)
      | follow target =>
        rw [hstep] at h
        cases links with
        | zero => cases h
        | succ links =>
          exact .follow ((step_eq_iff (by simp)).mp hstep) (ihlinks links (Nat.lt_succ_self _) h)

/-- **Look-ups go from component to component.** -/
theorem resolve_eq_ok_iff : tree.resolve purpose links here path = .ok location ↔
    LeadsTo tree purpose links here path location :=
  ⟨leadsTo_of_resolve, LeadsTo.resolve⟩

/-! ### Finding and creating -/

/-- A path with nothing behind its last slash stands for a directory. -/
theorem LeadsTo.directory (h : LeadsTo tree .find links here path location)
    (he : tree.Entered here) (hlast : ∀ name, path.getLast? = some name → name = "") :
    tree.node? location = some .directory := by
  induction h with
  | done => exact he.node?
  | arrive hstep =>
    cases hstep with
    | file hs _ hrest =>
      subst hrest
      exact absurd (hlast _ rfl) hs.ne_empty
    | made _ _ hcreate => cases hcreate
  | go hstep _ ih =>
    refine ih (hstep.entered he) fun last hl => hlast last ?_
    rw [List.getLast?_cons, hl]
    rfl
  | @follow _ _ _ _ _ rest hstep _ ih =>
    cases hstep with
    | link hs _ =>
      have hne : rest ≠ [] := by
        rintro rfl
        exact hs.ne_empty (hlast _ rfl)
      refine ih (he.start _) fun last hl => hlast last ?_
      rw [List.getLast?_append_of_ne_nil _ hne] at hl
      rw [List.getLast?_cons, hl]
      rfl

/-- No path with slashes at its end leads to a file. -/
theorem LeadsTo.not_slashes (front : List String)
    (h : LeadsTo tree .find links here (front ++ rest) location) (he : tree.Entered here)
    (hf : tree.node? location = some (.file number)) :
    ¬ (rest ≠ [] ∧ rest.all (· == "") = true) := by
  rintro ⟨hne, hall⟩
  have hdirectory := h.directory he fun last hlast => by
    rw [List.getLast?_append_of_ne_nil _ hne] at hlast
    simpa using List.all_eq_true.mp hall last (List.mem_of_getLast? hlast)
  simp [hf] at hdirectory

/-- A path that leads to a file can be written there. -/
theorem LeadsTo.create (h : LeadsTo tree .find links here path location) (he : tree.Entered here)
    (hf : tree.node? location = some (.file number)) :
    LeadsTo tree .create links here path location := by
  induction h with
  | done =>
    rw [he.node?] at hf
    cases hf
  | arrive hstep =>
    refine .arrive (hstep.create fun hslashes => hslashes.1 ?_)
    cases hstep with
    | file _ _ hrest => exact hrest
    | made _ _ _ hrest => exact hrest
  | go hstep more ih =>
    have hs := more.not_slashes [] (hstep.entered he) hf
    exact .go (hstep.create hs) (ih (hstep.entered he) hf)
  | follow hstep more ih =>
    have hs := more.not_slashes _ (he.start _) hf
    exact .follow (hstep.create hs) (ih (he.start _) hf)

/-- What is to be created is not there, or is a file. -/
theorem LeadsTo.vacant (h : LeadsTo tree .create links here path location) :
    tree.node? location = none ∨ ∃ number, tree.node? location = some (.file number) := by
  induction h with
  | done hfind => cases hfind
  | arrive hstep =>
    cases hstep with
    | file _ hnode => exact .inr ⟨_, hnode⟩
    | made _ hnode => exact .inl hnode
  | go _ _ ih => exact ih
  | follow _ _ ih => exact ih

/-- **A file that is made is found where it was made.** -/
theorem LeadsTo.find (h : LeadsTo tree .create links here path location)
    (hm : Made tree tree' location number) : LeadsTo tree' .find links here path location := by
  induction h with
  | done hfind => cases hfind
  | arrive hstep => exact .arrive (hm.stepsTo hstep (by simp))
  | go hstep _ ih => exact .go (hm.stepsTo hstep (by simp)) (ih hm)
  | follow hstep _ ih => exact .follow (hm.stepsTo hstep (by simp)) (ih hm)

/-! ### Paths -/

variable {path : String} {contents : ByteArray}

theorem locate_eq_ok_iff : tree.locate purpose path = .ok location ↔
    path ≠ "" ∧
      LeadsTo tree purpose maxLinks (start tree.current path) (components path) location := by
  rw [← resolve_eq_ok_iff, locate]
  split_ifs with h <;> simp [h]

theorem locate_create_of_file (h : tree.locate .find path = .ok location)
    (hf : tree.node? location = some (.file number)) :
    tree.locate .create path = .ok location := by
  obtain ⟨hne, hleads⟩ := locate_eq_ok_iff.mp h
  exact locate_eq_ok_iff.mpr ⟨hne, hleads.create (entered_current.start path) hf⟩

theorem vacant_of_locate_create (h : tree.locate .create path = .ok location) :
    tree.node? location = none ∨ ∃ number, tree.node? location = some (.file number) :=
  (locate_eq_ok_iff.mp h).2.vacant

theorem Made.locate (hm : Made tree tree' location number)
    (h : tree.locate .create path = .ok location) : tree'.locate .find path = .ok location := by
  obtain ⟨hne, hleads⟩ := locate_eq_ok_iff.mp h
  exact locate_eq_ok_iff.mpr ⟨hne, by rw [hm.current]; exact hleads.find hm⟩

theorem resolveWith_contents (tree : Tree) (contents : ℕ → ByteArray) (purpose : Purpose)
    (follow : Location → List String → Except AccessError Location) (here : Location)
    (path : List String) : Tree.resolveWith { tree with contents } purpose follow here path =
      tree.resolveWith purpose follow here path := by
  induction path generalizing here with
  | nil => rfl
  | cons name rest ih =>
    have hstep : Tree.step { tree with contents } purpose here name rest =
        tree.step purpose here name rest := rfl
    rw [resolveWith, resolveWith, hstep]
    cases tree.step purpose here name rest with
    | go next => exact ih next
    | _ => rfl

/-- **A look-up does not depend on what is in the files.** -/
theorem resolve_contents (tree : Tree) (contents : ℕ → ByteArray) (purpose : Purpose) (links : ℕ) :
    Tree.resolve { tree with contents } purpose links = tree.resolve purpose links := by
  induction links with
  | zero => exact funext₂ (resolveWith_contents tree contents purpose _)
  | succ links ih =>
    rw [resolve, resolve, ih]
    exact funext₂ (resolveWith_contents tree contents purpose _)

theorem locate_contents (tree : Tree) (contents : ℕ → ByteArray) (purpose : Purpose)
    (path : String) :
    Tree.locate { tree with contents } purpose path = tree.locate purpose path := by
  rw [locate, locate, resolve_contents]

theorem isDirectory_iff : tree.isDirectory path = true ↔
    ∃ location, tree.locate .find path = .ok location ∧
      tree.node? location = some .directory := by
  cases hl : tree.locate .find path <;> simp [isDirectory, hl]

/-! ### Reading and writing -/

/-- **What can be read**: a file that the path leads to, and that may be read. -/
theorem read_eq_ok_iff : tree.read path = .ok contents ↔
    ∃ location number, tree.locate .find path = .ok location ∧
      tree.node? location = some (.file number) ∧ tree.refusal? location .read = none ∧
      tree.contents number = contents := by
  cases hl : tree.locate .find path with
  | error cause => simp [read, hl, bind, Except.bind]
  | ok location =>
    cases hr : tree.refusal? location .read with
    | some cause => simp [read, hl, permit, hr, bind, Except.bind]
    | none =>
      cases hn : tree.node? location with
      | none => simp [read, hl, permit, hr, hn, bind, Except.bind]
      | some node => cases node <;> simp [read, hl, permit, hr, hn, bind, Except.bind]

/-- A file can be written wherever one can be read, if it may be. -/
theorem write_of_file (h : tree.locate .find path = .ok location)
    (hf : tree.node? location = some (.file number)) (hw : tree.refusal? location .write = none)
    (contents : ByteArray) : tree.write path contents = .ok (tree.fill number contents) := by
  simp [write, locate_create_of_file h hf, hf, permit, hw, bind, Except.bind, pure, Except.pure]

/-- **What can be written**: a file that is there and that may be written, or a new one. -/
theorem write_eq_ok_iff : tree.write path contents = .ok tree' ↔
    ∃ location, tree.locate .create path = .ok location ∧
      ((∃ number, tree.node? location = some (.file number) ∧
          tree.refusal? location .write = none ∧ tree' = tree.fill number contents) ∨
        tree.node? location = none ∧ tree' = tree.make location contents) := by
  cases hl : tree.locate .create path with
  | error cause => simp [write, hl, bind, Except.bind]
  | ok location =>
    obtain hn | ⟨number, hn⟩ := vacant_of_locate_create hl
    · simp [write, hl, hn, bind, Except.bind, pure, Except.pure, eq_comm]
    · cases hw : tree.refusal? location .write <;>
        simp [write, hl, hn, permit, hw, bind, Except.bind, pure, Except.pure, eq_comm]

theorem bound_le_of_mem {nodes : List (Location × Node)} {found : Location × Node}
    (h : found ∈ nodes) :
    found.2.bound ≤ nodes.foldr (fun found bound => max found.2.bound bound) 0 := by
  induction nodes with
  | nil => cases h
  | cons first nodes ih =>
    rw [List.foldr_cons]
    rcases List.mem_cons.mp h with rfl | hmem
    · exact Nat.le_max_left _ _
    · exact (ih hmem).trans (Nat.le_max_right _ _)

/-- **The number of a new file is that of no other.** -/
theorem node?_ne_freshNumber (tree : Tree) (location : Location) :
    tree.node? location ≠ some (.file tree.freshNumber) := by
  intro h
  unfold node? at h
  split_ifs at h
  · cases h
  · have hle := bound_le_of_mem (Std.TreeMap.mem_toList_iff_getElem?_eq_some.mpr h)
    exact Nat.not_succ_le_self _ hle

theorem made_fill (hf : tree.node? location = some (.file number)) (contents : ByteArray) :
    Made tree (tree.fill number contents) location number where
  current := rfl
  refusal? := rfl
  vacant := .inr ⟨number, hf⟩
  node?_self := hf
  node?_ne _ _ := rfl

theorem made_make (hn : tree.node? location = none) (contents : ByteArray) :
    Made tree (tree.make location contents) location tree.freshNumber := by
  have hprefix : location.isPrefixOf tree.current ≠ true := by
    intro h
    rw [node?_of_isPrefix (List.isPrefixOf_iff_prefix.mp h)] at hn
    cases hn
  have hnode (found : Location) : (tree.make location contents).node? found =
      if found.isPrefixOf tree.current then some .directory
      else (tree.nodes.insert location (.file tree.freshNumber))[found]? := rfl
  refine ⟨rfl, rfl, .inl hn, ?_, fun other hne => ?_⟩
  · rw [hnode, if_neg hprefix, Std.TreeMap.getElem?_insert_self]
  · have hc : compare location other ≠ .eq := fun hc =>
      hne (Std.LawfulEqCmp.eq_of_compare hc).symm
    rw [hnode, Std.TreeMap.getElem?_insert, if_neg hc]
    rfl

/-- **What a write does**: the path leads to a file with the contents from then on. That file was
there, or it is a new one. No other node is changed, and no other file. -/
theorem write_spec (h : tree.write path contents = .ok tree') :
    ∃ location number, tree'.locate .find path = .ok location ∧
      tree'.node? location = some (.file number) ∧ tree'.contents number = contents ∧
      (tree.node? location = some (.file number) ∨
        tree.node? location = none ∧ ∀ other, tree.node? other ≠ some (.file number)) ∧
      (∀ other, other ≠ location → tree'.node? other = tree.node? other) ∧
      ∀ other, other ≠ number → tree'.contents other = tree.contents other := by
  obtain ⟨location, hl, ⟨number, hn, -, rfl⟩ | ⟨hn, rfl⟩⟩ := write_eq_ok_iff.mp h
  · have hm := made_fill hn contents
    exact ⟨location, number, hm.locate hl, hm.node?_self, if_pos rfl, .inl hn, hm.node?_ne,
      fun _ hother => if_neg hother⟩
  · have hm := made_make hn contents
    exact ⟨location, _, hm.locate hl, hm.node?_self, if_pos rfl,
      .inr ⟨hn, tree.node?_ne_freshNumber⟩, hm.node?_ne, fun _ hother => if_neg hother⟩

end Tree

end MarkupTrim.Files
