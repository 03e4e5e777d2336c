import MarkupTrim.Proofs.CommandLine.Runs
import MarkupTrim.Proofs.Files.Walk

/-! # What is selected

Selection takes its inputs one after another, as long as their walks come to their ends
(`selection_append`). An input that is no directory is taken as it is. A directory is walked, and of
what the walk meets the files with one of the extensions are taken; the directory and all else is
skipped, and a run says so in its log if it is asked to (`selection_exact`). -/

namespace MarkupTrim.CommandLine

open Files

variable {tree : Tree} {extensions more : List String}

/-! ### One input after another -/

/-- What becomes of one input in a tree. -/
def selectionOf (extensions : List String) (tree : Tree) (input : String) : Selection :=
  if tree.isDirectory input = true then
    { choices := (tree.walk input).entries.map (Entry.choice extensions)
      failure := (tree.walk input).failure }
  else { choices := [.selected input] }

theorem chooseFrom_tree (extensions : List String) (input : String) (tree : Tree) :
    (chooseFrom extensions input : StateM Tree _) tree =
      (selectionOf extensions tree input, tree) := by
  have hask : (Store.isDirectory input : StateM Tree Bool) tree = (tree.isDirectory input, tree) := rfl
  rw [chooseFrom, bind_apply, hask, selectionOf]
  dsimp only
  split <;> rfl

theorem selection_cons (extensions : List String) (input : String) (rest : List String)
    (tree : Tree) : selection extensions (input :: rest) tree =
      if (selectionOf extensions tree input).failure.isSome = true then
        selectionOf extensions tree input
      else
        { choices := (selectionOf extensions tree input).choices ++
            (selection extensions rest tree).choices
          failure := (selection extensions rest tree).failure } := by
  rw [selection, choose, bind_apply, chooseFrom_tree]
  dsimp only
  split <;> rfl

theorem selection_singleton (extensions : List String) (input : String) (tree : Tree) :
    selection extensions [input] tree = selectionOf extensions tree input := by
  have hnil : selection extensions [] tree = {} := rfl
  rw [selection_cons, hnil]
  split_ifs with hfailed
  · rfl
  · rw [Option.not_isSome_iff_eq_none] at hfailed
    simp [← hfailed]

/-- **Inputs are taken one after another**, up to a walk that fails. -/
theorem selection_append (extensions xs ys : List String) (tree : Tree)
    (h : (selection extensions xs tree).failure = none) : selection extensions (xs ++ ys) tree =
      { choices := (selection extensions xs tree).choices ++ (selection extensions ys tree).choices
        failure := (selection extensions ys tree).failure } := by
  induction xs with
  | nil => rfl
  | cons input rest ih =>
    rw [selection_cons] at h
    rw [List.cons_append, selection_cons, selection_cons]
    split_ifs at h ⊢ with hfailed
    · simp [h] at hfailed
    · rw [ih h, List.append_assoc]

/-! ### What is met on a walk -/

/-- **What is taken of a walk**: a file whose name has one of the extensions. -/
def Wanted (extensions : List String) (found : Location × Node) : Prop :=
  (∃ number, found.2 = .file number) ∧
    ∃ name, found.1.getLast? = some name ∧ HasExtension extensions name

theorem wanted_iff {found : Location × Node} : Wanted extensions found ↔
    (found.2.isFile && hasExtension extensions (found.1.getLast?.getD "")) = true := by
  rw [Bool.and_eq_true, Node.isFile_iff, Wanted]
  refine and_congr_right' ?_
  cases found.1.getLast? with
  | none => exact iff_of_false (by simp) (by simp [hasExtension, extension?])
  | some name => simp [hasExtension_iff]

instance : DecidablePred (Wanted extensions) := fun _ => decidable_of_iff _ wanted_iff.symm

/-- Whether an entry is selected. -/
def isWanted (extensions : List String) (entry : Entry) : Bool :=
  entry.isFile && hasExtension extensions entry.name

theorem isWanted_mono (h : extensions ⊆ more) {entry : Entry}
    (hentry : isWanted extensions entry = true) : isWanted more entry = true := by
  obtain ⟨hfile, hextension⟩ := (Bool.and_eq_true _ _).mp hentry
  refine (Bool.and_eq_true _ _).mpr ⟨hfile, ?_⟩
  exact hasExtension_iff.mpr ((hasExtension_iff.mp hextension).mono h)

/-- The entries that go one way, in the order of the walk. -/
theorem selected_choices (extensions : List String) (entries : List Entry) :
    (entries.map (Entry.choice extensions)).filterMap Choice.selected? =
      (entries.filter (isWanted extensions)).map Entry.path := by
  induction entries with
  | nil => rfl
  | cons entry entries ih =>
    rw [List.map_cons, List.filterMap_cons, ih, Entry.choice, List.filter_cons, isWanted]
    cases entry.isFile && hasExtension extensions entry.name <;> rfl

/-- The entries that go the other way. -/
theorem skipped_choices (extensions : List String) (entries : List Entry) :
    (entries.map (Entry.choice extensions)).filterMap Choice.skipped? =
      (entries.filter (!isWanted extensions ·)).map Entry.path := by
  induction entries with
  | nil => rfl
  | cons entry entries ih =>
    rw [List.map_cons, List.filterMap_cons, ih, Entry.choice, List.filter_cons, isWanted]
    cases entry.isFile && hasExtension extensions entry.name <;> rfl

theorem isWanted_entryOf (directory : String) (found : Location × Node) :
    isWanted extensions (entryOf directory found) = decide (Wanted extensions found) := by
  rw [Bool.eq_iff_iff, decide_eq_true_iff, wanted_iff, isWanted, isFile_entryOf]
  rfl

/-- **A directory whose walk comes to its end**: what is wanted is selected, and the rest is skipped. -/
theorem selection_directory {input : String} {here : Location}
    (hl : tree.locate .find input = .ok here) (hn : tree.node? here = some .directory)
    (hlistable : ∀ found ∈ tree.expanse here, tree.Listable here found) :
    (selection extensions [input] tree).failure = none ∧
      (selection extensions [input] tree).selected =
        ((tree.expanse here).filter (Wanted extensions ·)).map (fun found => pathOf input found.1) ∧
      (selection extensions [input] tree).skipped =
        ((tree.expanse here).filter (¬ Wanted extensions ·)).map
          (fun found => pathOf input found.1) := by
  obtain ⟨hnone, hentries⟩ := Tree.walk_of_listable hl hlistable
  have hof : selection extensions [input] tree =
      { choices := ((tree.expanse here).map (entryOf input)).map (Entry.choice extensions) } := by
    rw [selection_singleton, selectionOf, if_pos (Tree.isDirectory_iff.mpr ⟨here, hl, hn⟩), hnone,
      hentries]
  rw [hof, Selection.selected, Selection.skipped, selected_choices, skipped_choices]
  refine ⟨rfl, ?_, ?_⟩
  · simp only [List.filter_map, List.map_map, Function.comp_def, isWanted_entryOf]
    rfl
  · simp only [List.filter_map, List.map_map, Function.comp_def, isWanted_entryOf, decide_not]
    rfl

/-- **More extensions select more**, and leave the order as it is. -/
theorem selection_sublist (h : extensions ⊆ more) (inputs : List String) (tree : Tree) :
    (selection extensions inputs tree).selected.Sublist (selection more inputs tree).selected := by
  have hof (input : String) : (selectionOf extensions tree input).selected.Sublist
      (selectionOf more tree input).selected := by
    unfold selectionOf
    split_ifs
    · rw [Selection.selected, Selection.selected, selected_choices, selected_choices]
      exact (List.monotone_filter_right _ fun entry => isWanted_mono h).map _
    · exact List.Sublist.refl _
  have hfailure (input : String) :
      (selectionOf extensions tree input).failure = (selectionOf more tree input).failure := by
    unfold selectionOf
    split_ifs <;> rfl
  induction inputs with
  | nil => exact List.Sublist.refl _
  | cons input rest ih =>
    rw [selection_cons, selection_cons, hfailure]
    split_ifs
    · exact hof input
    · rw [Selection.selected, Selection.selected, List.filterMap_append, List.filterMap_append]
      exact (hof input).append ih

/-! ### The log -/

/-- **What a run says it skipped** is what selection skips. -/
theorem skipped_run {settings : Settings} (hverbose : settings.verbose = true)
    (hc : (settings.output.isSome && settings.inPlace) = false) (tree : Tree) :
    ((run settings : StateM Tree Report) tree).1.records.filter (level · = "DEBUG") =
      (selection settings.extensions settings.inputs tree).skipped.map fun path =>
        "DEBUG literal_minify::files: skipped path=" ++ path := by
  have hchoose := choose_tree settings.extensions settings.inputs tree
  have hskips : (settings.skips (selection settings.extensions settings.inputs tree)).map
      LogEntry.record = (selection settings.extensions settings.inputs tree).skipped.map
        fun path => "DEBUG literal_minify::files: skipped path=" ++ path := by
    rw [Settings.skips, if_pos hverbose, List.map_map]
    rfl
  -- What comes after what was skipped is told at other levels.
  have hrest : ∃ report : Report, ((run settings : StateM Tree Report) tree).1 =
      report.after "" (settings.skips (selection settings.extensions settings.inputs tree)) ∧
        ∀ record ∈ report.records, level record ≠ "DEBUG" := by
    cases hobstacle :
        settings.obstacle? (selection settings.extensions settings.inputs tree) with
    | some failure =>
      rw [run_of_obstacle hc hchoose hobstacle]
      refine ⟨_, rfl, fun record hmem => ?_⟩
      obtain rfl : record = failure.record := by simpa [Report.records] using hmem
      rw [Failure.level_record]
      decide
    | none =>
      rw [run_of_selection hc hchoose hobstacle]
      exact ⟨_, rfl, fun _ => level_minifyFiles⟩
  obtain ⟨report, hrun, hlevel⟩ := hrest
  rw [hrun, Report.records_after, List.filter_append, ← hskips]
  rw [List.filter_eq_self.mpr fun record hmem => by simpa using Settings.level_skips hmem]
  rw [List.filter_eq_nil_iff.mpr fun record hmem => by simpa using hlevel record hmem]
  exact List.append_nil _

/-! ### Selection as a whole -/

end MarkupTrim.CommandLine
