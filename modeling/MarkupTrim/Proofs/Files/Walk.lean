import MarkupTrim.Proofs.Files.Lookup
import MarkupTrim.Proofs.Files.Paths
import MarkupTrim.Proofs.Text.Order

/-! # Walks

A walk of a directory meets the directory, and the entries of each directory that it meets
(`Tree.Met`). In a tree as a file system has it (`Tree.Proper`), what is listed from a location on is
such a walk: it has all that is met and nothing else, once each, a directory in front of all that is
below it and siblings in the order of the bytes of their names (`Tree.isWalk_expanse`). A walk whose
directories can all be listed comes to its end (`Tree.walk_of_listable`). -/

namespace MarkupTrim.Files

/-! ### The order of a walk -/

/-- **The order of a walk**: a directory comes before all that is below it, and of two entries of one
directory the one whose name has the smaller bytes comes first, with all that is below it. -/
def Earlier (a b : Location) : Prop := List.Lex (fun s t => Text.bytes s < Text.bytes t) a b

theorem earlier_cons_iff {s t : String} {a b : Location} :
    Earlier (s :: a) (t :: b) ↔ Text.bytes s < Text.bytes t ∨ s = t ∧ Earlier a b :=
  List.cons_lex_cons_iff

theorem compare_eq_lt_iff_earlier {a b : Location} : compare a b = .lt ↔ Earlier a b := by
  induction a generalizing b with
  | nil =>
    cases b with
    | nil => exact iff_of_false Ordering.noConfusion List.not_lex_nil
    | cons t b => exact iff_of_true List.compare_nil_cons List.Lex.nil
  | cons s a ih =>
    cases b with
    | nil => exact iff_of_false Ordering.noConfusion List.not_lex_nil
    | cons t b =>
      rw [List.compare_cons_cons, Ordering.then_eq_lt, Text.compare_eq_lt_iff, ih,
        Std.LawfulEqOrd.compare_eq_iff_eq, earlier_cons_iff]

theorem earlier_append_iff {here a b : Location} : Earlier (here ++ a) (here ++ b) ↔ Earlier a b := by
  induction here with
  | nil => rfl
  | cons name here ih =>
    rw [List.cons_append, List.cons_append, earlier_cons_iff, ih]
    simp [List.lt_irrefl]

theorem Earlier.ne {a b : Location} (h : Earlier a b) : a ≠ b := by
  rintro rfl
  exact List.lex_irrefl (fun name => List.lt_irrefl (Text.bytes name)) a h

def Node.isFile : Node → Bool
  | file _ => true
  | directory => false
  | link _ => false

theorem Node.isFile_iff {node : Node} : node.isFile = true ↔ ∃ number, node = file number := by
  cases node <;> simp [isFile]

theorem isFile_entryOf (directory : String) (found : Location × Node) :
    (entryOf directory found).isFile = found.2.isFile := by
  cases h : found.2 <;> simp [entryOf, h, Node.isFile]

namespace Tree

variable {tree : Tree} {here names : Location} {node : Node}

/-! ### What a walk meets -/

/-- **What a walk meets** of the directory at `here`, as names from there on: the directory, and the
entries of the directories it meets. Links are not followed. -/
inductive Met (tree : Tree) (here : Location) : Location → Node → Prop where
  | root : Met tree here [] .directory
  | entry {names : Location} {name : String} {node : Node} : Met tree here names .directory →
      tree.node? (here ++ (names ++ [name])) = some node → Met tree here (names ++ [name]) node

/-- **A tree as a file system has it**: a name is one that an entry can have, and what is there is in a
directory. -/
structure Proper (tree : Tree) : Prop where
  isName : ∀ location, (tree.node? location).isSome = true → ∀ name ∈ location, IsName name
  parent : ∀ location, (tree.node? location).isSome = true →
    tree.node? location.parent = some .directory

/-- In a tree as a file system has it, what is there below a directory is met. -/
theorem Proper.met_iff (h : tree.Proper) (hd : tree.node? here = some .directory) :
    tree.Met here names node ↔ tree.node? (here ++ names) = some node := by
  constructor
  · intro hmet
    cases hmet with
    | root => rwa [List.append_nil]
    | entry _ hnode => exact hnode
  · intro hnode
    induction names using List.reverseRecOn generalizing node with
    | nil =>
      rw [List.append_nil, hd] at hnode
      exact Option.some.inj hnode ▸ .root
    | append_singleton names name ih =>
      have hparent := h.parent _ (Option.isSome_iff_exists.mpr ⟨node, hnode⟩)
      rw [Location.parent, ← List.append_assoc, List.dropLast_concat] at hparent
      exact .entry (ih hparent) hnode

/-! ### What is listed -/

open Classical in
/-- The directories on the way are listed besides what is there. -/
theorem getElem?_listedAlong (nodes : Std.TreeMap Location Node) (here way found : Location) :
    (listedAlong nodes here way)[found]? =
      if ∃ front, front ≠ [] ∧ front <+: way ∧ found = here ++ front then some .directory
      else nodes[found]? := by
  induction way generalizing nodes here with
  | nil => simp [listedAlong]
  | cons name rest ih =>
    rw [listedAlong, ih, Std.TreeMap.getElem?_insert]
    have hway : (∃ front, front ≠ [] ∧ front <+: name :: rest ∧ found = here ++ front) ↔
        found = here ++ [name] ∨
          ∃ front, front ≠ [] ∧ front <+: rest ∧ found = here ++ [name] ++ front := by
      constructor
      · rintro ⟨front, hne, hfront, rfl⟩
        obtain rfl | ⟨more, rfl, hmore⟩ := List.prefix_cons_iff.mp hfront
        · exact absurd rfl hne
        · cases more with
          | nil => exact .inl rfl
          | cons next more => exact .inr ⟨_, List.cons_ne_nil next more, hmore, by simp⟩
      · rintro (rfl | ⟨front, -, hfront, rfl⟩)
        · exact ⟨[name], by simp, by simp, rfl⟩
        · exact ⟨name :: front, by simp, by simpa using hfront, by simp⟩
    by_cases hfound : found = here ++ [name]
    · subst hfound
      simp
    · have hc : compare (here ++ [name]) found ≠ .eq := fun hc =>
        hfound (Std.LawfulEqCmp.eq_of_compare hc).symm
      rw [if_neg hc]
      simp only [hway, hfound, false_or]

/-- **All is listed but the root.** -/
theorem getElem?_listed {found : Location} (hne : found ≠ []) :
    tree.listed[found]? = tree.node? found := by
  rw [listed, getElem?_listedAlong, node?]
  have hway : (∃ front, front ≠ [] ∧ front <+: tree.current ∧ found = [] ++ front) ↔
      found.isPrefixOf tree.current = true := by
    rw [List.isPrefixOf_iff_prefix]
    exact ⟨fun ⟨_, _, hfront, hfound⟩ => hfound ▸ hfront, fun h => ⟨found, hne, h, rfl⟩⟩
  simp only [hway]

/-- Only what is listed need be looked at. -/
theorem proper_of_listed (h : ∀ found ∈ tree.listed.toList,
    (∀ name ∈ found.1, IsName name) ∧ tree.node? found.1.parent = some .directory) :
    tree.Proper := by
  have hlisted (location : Location) (hne : location ≠ [])
      (hs : (tree.node? location).isSome = true) : (∀ name ∈ location, IsName name) ∧
        tree.node? location.parent = some .directory := by
    obtain ⟨node, hnode⟩ := Option.isSome_iff_exists.mp hs
    rw [← getElem?_listed hne] at hnode
    exact h _ (Std.TreeMap.mem_toList_iff_getElem?_eq_some.mpr hnode)
  refine ⟨fun location hs => ?_, fun location hs => ?_⟩
  · by_cases hne : location = []
    · simp [hne]
    · exact (hlisted location hne hs).1
  · by_cases hne : location = []
    · exact hne ▸ tree.node?_nil
    · exact (hlisted location hne hs).2

/-- Whether the nodes that are listed are as a file system has them. -/
def isProper (tree : Tree) : Bool :=
  tree.listed.toList.all fun found =>
    (found.1.all fun name => decide (IsName name)) &&
      tree.node? found.1.parent == some .directory

theorem proper_of_isProper (h : tree.isProper = true) : tree.Proper := by
  refine proper_of_listed fun found hfound => ?_
  obtain ⟨hnames, hparent⟩ := (Bool.and_eq_true _ _).mp (List.all_eq_true.mp h found hfound)
  exact ⟨fun name hname => of_decide_eq_true (List.all_eq_true.mp hnames name hname),
    eq_of_beq hparent⟩

/-- What is listed below a location has its names behind those of the location. -/
theorem listed_eq_some_iff {found : Location} {node' : Node} :
    (if here.isPrefixOf found ∧ found.drop here.length ≠ [] then
      some (found.drop here.length, node) else none) = some (names, node') ↔
    found = here ++ names ∧ node = node' ∧ names ≠ [] := by
  constructor
  · intro h
    split_ifs at h with hfound
    obtain ⟨hfront, hne⟩ := hfound
    obtain ⟨hnames, rfl⟩ := Prod.mk.inj (Option.some.inj h)
    obtain ⟨rest, rfl⟩ := List.isPrefixOf_iff_prefix.mp hfront
    rw [List.drop_left] at hnames hne
    subst hnames
    exact ⟨rfl, rfl, hne⟩
  · rintro ⟨rfl, rfl, hne⟩
    rw [List.drop_left, if_pos]
    exact ⟨List.isPrefixOf_iff_prefix.mpr (List.prefix_append _ _), hne⟩

theorem mem_below_iff : (names, node) ∈ tree.below here ↔
    names ≠ [] ∧ tree.node? (here ++ names) = some node := by
  unfold below
  rw [List.mem_filterMap]
  constructor
  · rintro ⟨⟨found, node'⟩, hmem, hlisted⟩
    obtain ⟨rfl, rfl, hne⟩ := listed_eq_some_iff.mp hlisted
    rw [← getElem?_listed (List.append_ne_nil_of_right_ne_nil here hne)]
    exact ⟨hne, Std.TreeMap.mem_toList_iff_getElem?_eq_some.mp hmem⟩
  · rintro ⟨hne, hfound⟩
    rw [← getElem?_listed (List.append_ne_nil_of_right_ne_nil here hne)] at hfound
    exact ⟨(here ++ names, node), Std.TreeMap.mem_toList_iff_getElem?_eq_some.mpr hfound,
      listed_eq_some_iff.mpr ⟨rfl, rfl, hne⟩⟩

theorem mem_expanse_iff (hd : tree.node? here = some .directory) :
    (names, node) ∈ tree.expanse here ↔ tree.node? (here ++ names) = some node := by
  rw [expanse, List.mem_cons, Prod.mk.injEq, mem_below_iff]
  by_cases hne : names = []
  · simp [hne, hd, eq_comm]
  · simp [hne]

theorem pairwise_below (tree : Tree) (here : Location) :
    (tree.below here).Pairwise fun found other => Earlier found.1 other.1 := by
  refine Std.TreeMap.ordered_keys_toList.filterMap _ ?_
  rintro ⟨found, node⟩ ⟨other, node'⟩ hlt ⟨names, node₁⟩ hlisted ⟨names', node₂⟩ hlisted'
  obtain ⟨rfl, -, -⟩ := listed_eq_some_iff.mp hlisted
  obtain ⟨rfl, -, -⟩ := listed_eq_some_iff.mp hlisted'
  exact earlier_append_iff.mp (compare_eq_lt_iff_earlier.mp hlt)

theorem pairwise_expanse (tree : Tree) (here : Location) :
    (tree.expanse here).Pairwise fun found other => Earlier found.1 other.1 := by
  refine List.pairwise_cons.mpr ⟨?_, pairwise_below tree here⟩
  rintro ⟨names, node⟩ hmem
  obtain ⟨name, rest, rfl⟩ := List.exists_cons_of_ne_nil (mem_below_iff.mp hmem).1
  exact List.Lex.nil

/-- The list is the walk of the directory at `here`. -/
structure IsWalk (tree : Tree) (here : Location) (walk : List (Location × Node)) : Prop where
  met : ∀ names node, (names, node) ∈ walk ↔ tree.Met here names node
  ordered : walk.Pairwise fun found other => Earlier found.1 other.1

/-- **What is listed from a directory on is its walk.** -/
theorem isWalk_expanse (h : tree.Proper) (hd : tree.node? here = some .directory) :
    tree.IsWalk here (tree.expanse here) where
  met _ _ := (mem_expanse_iff hd).trans (h.met_iff hd).symm
  ordered := pairwise_expanse tree here

/-- **Each entry has a path of its own.** -/
theorem IsWalk.nodup_paths (h : tree.Proper) (hd : tree.node? here = some .directory)
    {walk : List (Location × Node)} (hwalk : tree.IsWalk here walk) (directory : String) :
    (walk.map fun found => pathOf directory found.1).Nodup := by
  have hnames (found : Location × Node) (hfound : found ∈ walk) : ∀ name ∈ found.1, IsName name := by
    have hnode := (h.met_iff hd).mp ((hwalk.met found.1 found.2).mp hfound)
    exact fun name hname => h.isName _ (Option.isSome_iff_exists.mpr ⟨_, hnode⟩) name
      (List.mem_append_right here hname)
  refine List.pairwise_map.mpr (hwalk.ordered.imp_of_mem fun hfound hother hlt hpath => hlt.ne ?_)
  exact (pathOf_inj (hnames _ hfound) (hnames _ hother)).mp hpath

/-! ### How far a walk comes -/

/-- What is met can be listed, if it is a directory. -/
def Listable (tree : Tree) (here : Location) (found : Location × Node) : Prop :=
  found.2 = .directory → tree.listingError? here found.1 = none

/-- Where nothing is refused, all can be listed. -/
theorem listable_of_refusal? (h : ∀ location right, tree.refusal? location right = none)
    (here : Location) (found : Location × Node) : tree.Listable here found := by
  have herror (names here : Location) : tree.listingError? here names = none := by
    induction names generalizing here with
    | nil => exact h here .read
    | cons name rest ih => rw [listingError?, h, ih]; rfl
  exact fun _ => herror found.1 here

/-- **How far a walk comes**: to its end, or to the first directory that cannot be listed, which is
the last of what it yields. -/
theorem walkAlong_cases (tree : Tree) (directory : String) (here : Location)
    (walk : List (Location × Node)) :
    let outcome := tree.walkAlong directory here walk
    (outcome.failure = none ∧ outcome.entries = walk.map (entryOf directory)) ∨
      ∃ front found rest cause, walk = front ++ found :: rest ∧ found.2 = .directory ∧
        tree.listingError? here found.1 = some cause ∧
        outcome.failure = some { path := pathOf directory found.1, cause } ∧
        outcome.entries = (front ++ [found]).map (entryOf directory) := by
  induction walk with
  | nil => exact .inl ⟨rfl, rfl⟩
  | cons first walk ih =>
    rw [walkAlong]
    cases hfirst : (if first.2 = .directory then tree.listingError? here first.1 else none) with
    | some cause =>
      split_ifs at hfirst with hdirectory
      exact .inr ⟨[], first, walk, cause, rfl, hdirectory, hfirst, rfl, rfl⟩
    | none =>
      obtain ⟨hnone, hentries⟩ | ⟨front, found, rest, cause, rfl, hd, hcause, hfailure, hentries⟩ :=
        ih
      · exact .inl ⟨hnone, by rw [List.map_cons, ← hentries]⟩
      · exact .inr ⟨first :: front, found, rest, cause, rfl, hd, hcause, hfailure,
          by rw [List.cons_append, List.map_cons, ← hentries]⟩

theorem walk_eq {path : String} (h : tree.locate .find path = .ok here) :
    tree.walk path = tree.walkAlong path here (tree.expanse here) := by
  rw [walk, h]

/-- **A walk whose directories can all be listed comes to its end.** -/
theorem walk_of_listable {path : String} (h : tree.locate .find path = .ok here)
    (hlistable : ∀ found ∈ tree.expanse here, tree.Listable here found) :
    (tree.walk path).failure = none ∧
      (tree.walk path).entries = (tree.expanse here).map (entryOf path) := by
  rw [walk_eq h]
  obtain hdone | ⟨front, found, rest, cause, hwalk, hd, hcause, -⟩ :=
    walkAlong_cases tree path here (tree.expanse here)
  · exact hdone
  · rw [hlistable found (by simp [hwalk]) hd] at hcause
    cases hcause

end Tree

end MarkupTrim.Files
