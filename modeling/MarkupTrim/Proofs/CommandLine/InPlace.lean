import MarkupTrim.Proofs.CommandLine.Runs

/-! # Printing and rewriting

A run without an output file prints what it makes of its texts or puts it in their place. Either way
it gets as far as the first path without a text. What it prints and what it rewrites is told by the
tree that it starts with (`run_print_inPlace`), although a file may be read again after it was
rewritten, under the same path or another one: what is written is a text, and no path leads elsewhere
for it, so a path that had a text has one all along. -/

namespace MarkupTrim.CommandLine

open Files

/-- **A run that prints** prints one text after another, and changes nothing. -/
theorem minifyFiles_print (mode : Mode) (tree : Tree) (paths : List String) :
    let outcome := (minifyFiles mode .print paths : StateM Tree Report) tree
    outcome.1.printed = String.join
      (((tree.readable paths).filterMap tree.text?).map fun text => mode.treat text ++ "\n") ∧
    outcome.2 = tree ∧ (outcome.1.failure = none ↔ tree.readable paths = paths) := by
  induction paths with
  | nil => exact ⟨rfl, rfl, by simp [Tree.readable, minifyFiles_nil]⟩
  | cons path rest ih =>
    cases h : tree.text? path with
    | none =>
      obtain ⟨cause, hrun⟩ := minifyFiles_of_none mode .print h rest
      rw [hrun, Tree.readable_cons_of_none h]
      exact ⟨rfl, rfl, by simp⟩
    | some text =>
      obtain ⟨hprinted, htree, hfailure⟩ := ih
      have hrun := minifyFiles_of_some mode .print h rest
      dsimp only at hrun ⊢
      rw [hrun, deliver_print, Tree.readable_cons_of_some h]
      refine ⟨?_, htree, ?_⟩
      · simp [hprinted, h]
      · simp [hfailure]

/-- **A run in place** prints nothing, and rewrites each file as often as a path leads to it. -/
theorem minifyFiles_inPlace (mode : Mode) {tree : Tree} {paths : List String}
    (hw : ∀ path ∈ paths, tree.Rewritable path) :
    let outcome := (minifyFiles mode .inPlace paths : StateM Tree Report) tree
    outcome.1.printed = "" ∧
    outcome.2 = tree.rewritten mode.treat (tree.visits (tree.readable paths)) ∧
    (outcome.1.failure = none ↔ tree.readable paths = paths) := by
  induction paths generalizing tree with
  | nil => exact ⟨rfl, tree.rewritten_zero.symm, by simp [Tree.readable, minifyFiles_nil]⟩
  | cons path rest ih =>
    cases h : tree.text? path with
    | none =>
      obtain ⟨cause, hrun⟩ := minifyFiles_of_none mode .inPlace h rest
      rw [hrun, Tree.readable_cons_of_none h]
      exact ⟨rfl, tree.rewritten_zero.symm, by simp⟩
    | some text =>
      -- The rest of the run starts from another tree, but one with the same texts to reach.
      obtain ⟨hpath, hrest⟩ := List.forall_mem_cons.mp hw
      have hwrite := Tree.write_of_text? (f := mode.treat) hpath h
      obtain ⟨hprinted, hmore, hfailure⟩ := ih fun other hother =>
        (hrest other hother).rewritten (f := mode.treat) (tree.visits [path])
      have hrun := minifyFiles_of_some mode .inPlace h rest
      dsimp only at hrun ⊢
      rw [hrun, deliver_of_target rfl, hwrite, Tree.readable_cons_of_some h]
      rw [Tree.readable_rewritten, Tree.rewritten_rewritten] at hmore
      rw [Tree.readable_rewritten] at hfailure
      have hvisits : (fun number => tree.visits [path] number +
          (tree.rewritten mode.treat (tree.visits [path])).visits (tree.readable rest) number) =
            tree.visits (path :: tree.readable rest) :=
        funext fun number => by rw [Tree.visits_rewritten, ← Tree.visits_cons]
      exact ⟨by simpa using hprinted, hvisits ▸ hmore, by simpa using hfailure⟩

/-! ### Whole runs -/

section

variable {tree : Tree} (settings : Settings)

/-- How far a run gets is told by the end of its paths. -/
theorem exitStatus_iff {report : Report} {paths : List String}
    (h : report.failure = none ↔ tree.readable paths = paths) :
    report.exitStatus = 0 ↔ (tree.readable paths).length = paths.length := by
  rw [Report.exitStatus_eq_zero_iff, h, Tree.readable_eq_iff]

/-- Without an output file, only a walk can keep a run from its files. -/
theorem obstacle?_of_output (ho : settings.output = none) (chosen : Selection) :
    settings.obstacle? chosen = chosen.failure.map Failure.walk := by
  unfold Settings.obstacle?
  cases chosen.failure <;> simp [ho]

theorem run_print (ho : settings.output = none) (hi : settings.inPlace = false)
    (hwalked : (selection settings.extensions settings.inputs tree).failure = none) :
    let chosen := selection settings.extensions settings.inputs tree
    let reached := tree.readable chosen.selected
    let outcome := (run settings : StateM Tree Report) tree
    outcome.1.printed = String.join
        ((reached.filterMap tree.text?).map fun text => settings.mode.treat text ++ "\n") ∧
      outcome.2 = tree ∧ (outcome.1.exitStatus = 0 ↔ reached.length = chosen.selected.length) := by
  intro chosen reached outcome
  have hrun : outcome = _ := run_of_selection (by simp [ho]) (choose_tree _ _ tree)
    (by rw [obstacle?_of_output settings ho, hwalked]; rfl)
  have hdestination : settings.destination = .print := by simp [Settings.destination, ho, hi]
  obtain ⟨htexts, htree, hstop⟩ := minifyFiles_print settings.mode tree chosen.selected
  rw [hrun, hdestination, Report.printed_after, String.empty_append]
  exact ⟨htexts, htree, exitStatus_iff hstop⟩

theorem run_inPlace (ho : settings.output = none) (hi : settings.inPlace = true)
    (hwalked : (selection settings.extensions settings.inputs tree).failure = none)
    (hwrite : ∀ path ∈ (selection settings.extensions settings.inputs tree).selected,
      tree.Rewritable path) :
    let chosen := selection settings.extensions settings.inputs tree
    let reached := tree.readable chosen.selected
    let outcome := (run settings : StateM Tree Report) tree
    outcome.1.printed = "" ∧
      outcome.2 = tree.rewritten settings.mode.treat (tree.visits reached) ∧
      (outcome.1.exitStatus = 0 ↔ reached.length = chosen.selected.length) := by
  intro chosen reached outcome
  have hrun : outcome = _ := run_of_selection (by simp [ho]) (choose_tree _ _ tree)
    (by rw [obstacle?_of_output settings ho, hwalked]; rfl)
  have hdestination : settings.destination = .inPlace := by simp [Settings.destination, ho, hi]
  obtain ⟨hempty, htree, hstop⟩ := minifyFiles_inPlace settings.mode hwrite
  rw [hrun, hdestination, Report.printed_after, String.empty_append]
  exact ⟨hempty, htree, exitStatus_iff hstop⟩

/-- A walk that fails ends a run before it takes a file. -/
theorem run_of_walk (ho : settings.output = none)
    (hfailed : (selection settings.extensions settings.inputs tree).failure ≠ none) :
    let outcome := (run settings : StateM Tree Report) tree
    outcome.1.printed = "" ∧ outcome.2 = tree ∧ outcome.1.exitStatus = 1 := by
  intro outcome
  obtain ⟨error, herror⟩ := Option.ne_none_iff_exists'.mp hfailed
  have hrun : outcome = _ := run_of_obstacle (by simp [ho]) (choose_tree _ _ tree)
    ((obstacle?_of_output settings ho _).trans (congrArg _ herror))
  rw [hrun]
  exact ⟨rfl, rfl, rfl⟩

end

end MarkupTrim.CommandLine
