import MarkupTrim.Proofs.CommandLine.Runs

/-! # Runs with an output file

A run with an output file does all or nothing: it replaces one file, or it leaves the tree as it was
(`respond_output`). What cannot be done with an output file is refused before a file is read. A
directory that cannot be walked, a file that cannot be read, and an output file that cannot be
written, end the run before anything is changed. -/

namespace MarkupTrim.CommandLine

open Files

/-- Whether a failure lies in what was asked for, and not in what the files are like. -/
def Failure.isRefusal : Failure → Bool
  | outputInPlace => true
  | outputCount _ => true
  | read _ _ => false
  | write _ _ => false
  | walk _ => false

variable {settings : Settings} {target : String}

/-- What comes of the one file of a run: it goes to the output file, or nothing is changed. -/
theorem minifyFiles_file (mode : Mode) (target path : String) (tree : Tree) :
    let outcome := (minifyFiles mode (.file target) [path] : StateM Tree Report) tree
    outcome.1.printed = "" ∧
      ((∃ path cause, (outcome.1.failure = some (.read path cause) ∨
          outcome.1.failure = some (.write path cause)) ∧ outcome.2 = tree) ∨
        ∃ text, tree.text? path = some text ∧ outcome.1.failure = none ∧
          tree.write target (mode.treat text).toUTF8 = .ok outcome.2) := by
  cases h : tree.text? path with
  | none =>
    obtain ⟨cause, hrun⟩ := minifyFiles_of_none mode (.file target) h []
    rw [hrun]
    exact ⟨rfl, .inl ⟨path, cause, .inl rfl, rfl⟩⟩
  | some text =>
    have hrun := minifyFiles_of_some mode (.file target) h []
    dsimp only at hrun ⊢
    rw [hrun, deliver_of_target rfl]
    cases hwrite : tree.write target (mode.treat text).toUTF8 with
    | error cause => exact ⟨rfl, .inl ⟨target, cause, .inr rfl, rfl⟩⟩
    | ok written => exact ⟨rfl, .inr ⟨text, rfl, rfl, hwrite⟩⟩

/-- What comes of a run with an output file when its selection is done: it is kept from its files, or
it goes on with one of them. -/
theorem run_output_cases (ho : settings.output = some target) (hi : settings.inPlace = false)
    (tree : Tree) :
    let chosen := selection settings.extensions settings.inputs tree
    (∃ failure, settings.obstacle? chosen = some failure) ∨
      ∃ path report after, chosen.failure = none ∧ chosen.selected = [path] ∧
        (run settings : StateM Tree Report) tree = (report, after) ∧ report.printed = "" ∧
        ((∃ path cause, (report.failure = some (.read path cause) ∨
            report.failure = some (.write path cause)) ∧ after = tree) ∨
          ∃ text, tree.text? path = some text ∧ report.failure = none ∧
            tree.write target (settings.mode.treat text).toUTF8 = .ok after) := by
  intro chosen
  cases hobstacle : settings.obstacle? chosen with
  | some failure => exact .inl ⟨failure, rfl⟩
  | none =>
    have hsome : settings.output.isSome = true := by rw [ho]; rfl
    obtain ⟨hwalked, hone⟩ := Settings.obstacle?_eq_none_iff.mp hobstacle
    obtain ⟨path, hpath⟩ := List.length_eq_one_iff.mp (hone hsome)
    have hdestination : settings.destination = .file target := by rw [Settings.destination, ho]
    have hrun := run_of_selection (by simp [hi]) (choose_tree _ _ tree) hobstacle
    obtain ⟨hsilent, hcases⟩ := minifyFiles_file settings.mode target path tree
    dsimp only at hrun
    rw [hpath, hdestination] at hrun
    exact .inr ⟨path, _, _, hwalked, hpath, hrun, hsilent, hcases⟩

/-- **A run with an output file does all or nothing**, whatever the command line. It prints nothing.
If it fails, the tree is as it was. It is refused for what was asked if it is to write in place too,
or if its walks come to their ends and select another number of files than one; then no file was
accessed and none is logged as minified. A walk that fails ends it. If it succeeds, one path was
selected, and the output file has the text of that path as it was before the run, treated; the path
may lead to the output file itself. That file was there, or it is a new one, and nothing else is
changed. -/
theorem respond_output {arguments : List String} (h : request arguments = .run settings)
    (ho : settings.output = some target) (tree : Tree) :
    let treat (text : String) : String :=
      if settings.passThrough then text else (minifyText text).text
    let chosen := selection settings.extensions settings.inputs tree
    ∃ report after,
      (respond arguments : StateM (Watched Tree) _) { state := tree } = (.ok report, after) ∧
      (respond arguments : StateM Tree _) tree = (.ok report, after.state) ∧
      report.printed = "" ∧
      (report.exitStatus = 1 → after.state = tree) ∧
      (report.failure.any Failure.isRefusal = true ↔
        settings.inPlace = true ∨ chosen.failure = none ∧ chosen.selected.length ≠ 1) ∧
      (report.failure.any Failure.isRefusal = true →
        after.accesses = [] ∧ ∀ record ∈ report.records, level record ≠ "INFO") ∧
      (∀ error, report.failure = some (.walk error) ↔
        settings.inPlace = false ∧ chosen.failure = some error) ∧
      (report.exitStatus = 0 → ∃ path text location number,
        chosen.selected = [path] ∧ tree.text? path = some text ∧
        after.state.locate .find target = .ok location ∧
        after.state.node? location = some (.file number) ∧
        after.state.contents number = (treat text).toUTF8 ∧
        (tree.node? location = some (.file number) ∨
          tree.node? location = none ∧ ∀ other, tree.node? other ≠ some (.file number)) ∧
        (∀ other, other ≠ location → after.state.node? other = tree.node? other) ∧
        ∀ other, other ≠ number → after.state.contents other = tree.contents other) := by
  intro treat chosen
  have hsome : settings.output.isSome = true := by rw [ho]; rfl
  have htreat : settings.mode.treat = treat := treat_mode settings
  have hwatched := respond_of_run h ({ state := tree } : Watched Tree)
  have halone := follows_respond arguments { state := tree }
  have hfollows := follows_run settings { state := tree }
  rw [hwatched] at halone
  rcases hrun : (run settings : StateM (Watched Tree) Report) { state := tree } with ⟨report, after⟩
  rw [hrun] at hwatched halone hfollows
  dsimp only at hwatched halone hfollows
  refine ⟨report, after, hwatched, halone, ?_⟩
  rw [Report.exitStatus_eq_one_iff, Report.exitStatus_eq_zero_iff]
  by_cases hi : settings.inPlace = true
  · obtain ⟨rfl, rfl⟩ := Prod.mk.inj (hrun.symm.trans (run_of_conflict (by simp [hsome, hi]) _))
    have hlog := Failure.level_record .outputInPlace
    simp [Report.records, Failure.isRefusal, hi, hlog]
  · rw [Bool.not_eq_true] at hi
    obtain ⟨failure, hobstacle⟩ |
      ⟨path, _, _, hwalked, hpath, hdone, hprinted, hcases⟩ := run_output_cases ho hi tree
    · have hstopped := run_of_obstacle (by simp [hi])
        (choose_watched (w := { state := tree }) (choose_tree _ _ tree)) hobstacle
      obtain ⟨rfl, rfl⟩ := Prod.mk.inj (hrun.symm.trans hstopped)
      refine ⟨rfl, fun _ => rfl, ?_⟩
      obtain ⟨error, herror, rfl⟩ | ⟨hwalked, -, hmany, rfl⟩ :=
        Settings.obstacle?_eq_some_iff.mp hobstacle
      · exact ⟨by simp [Failure.isRefusal, hi, chosen, herror],
          fun _ => ⟨rfl, fun _ => Settings.level_ne_info⟩, by simp [hi, chosen, herror], by simp⟩
      · exact ⟨by simp [Failure.isRefusal, hi, chosen, hwalked, hmany],
          fun _ => ⟨rfl, fun _ => Settings.level_ne_info⟩, by simp [chosen, hwalked], by simp⟩
    · obtain ⟨rfl, rfl⟩ := Prod.mk.inj (hfollows.symm.trans hdone)
      refine ⟨hprinted, ?_⟩
      obtain ⟨found, cause, hfailed | hfailed, hkept⟩ | ⟨text, htext, hnone, hwrite⟩ := hcases
      · simp [hfailed, Failure.isRefusal, hkept, hi, chosen, hwalked, hpath]
      · simp [hfailed, Failure.isRefusal, hkept, hi, chosen, hwalked, hpath]
      · obtain ⟨location, number, hspec⟩ := Tree.write_spec hwrite
        rw [htreat] at hspec
        refine ⟨by simp [hnone], by simp [hnone, hi, chosen, hpath], by simp [hnone],
          by simp [hnone, chosen, hwalked], fun _ => ?_⟩
        exact ⟨path, text, location, number, hpath, htext, hspec⟩

/-- The output file is named from the root, and is a link to the file that is read. -/
theorem respond_output_link :
    let arguments := ["-o", "/work/out", "page"]
    let settings : Settings := { output := some "/work/out", inputs := ["page"] }
    let nodes : List (Location × Node) :=
      [(["work", "page"], .file 0), (["work", "out"], .link "../work/page")]
    let tree : Tree := { nodes := .ofList nodes, contents := fun _ => " a\n".toUTF8 }
    request arguments = .run settings ∧ settings.output = some "/work/out" ∧
      ∃ report after number,
        (respond arguments : StateM Tree _) tree = (.ok report, after) ∧
        report.printed = "" ∧ report.exitStatus = 0 ∧
        after.locate .find "/work/out" = .ok ["work", "page"] ∧
        after.node? ["work", "page"] = some (.file number) ∧
        after.contents number = "a".toUTF8 := by
  intro arguments settings nodes tree
  have hrequest : request arguments = .run settings := by decide +kernel
  obtain ⟨report, after, -, hrun, hprinted, -, -, -, -, hdone⟩ := respond_output hrequest rfl tree
  have hsuccess : report.exitStatus = 0 := by
    have hreport : ((respond arguments : StateM Tree _) tree).1.toOption.map Report.failure =
        some none := by decide +kernel
    rw [hrun] at hreport
    exact Report.exitStatus_eq_zero_iff.mpr (Option.some.inj hreport)
  have hplace : ((respond arguments : StateM Tree _) tree).2.locate .find "/work/out" =
      .ok ["work", "page"] := by decide +kernel
  rw [hrun] at hplace
  obtain ⟨path, text, location, number, hpaths, htext, hfound, hnode, hcontents, -⟩ :=
    hdone hsuccess
  obtain rfl : location = ["work", "page"] := Except.ok.inj (hfound.symm.trans hplace)
  have hselected : (selection settings.extensions settings.inputs tree).selected = ["page"] := by
    decide +kernel
  obtain rfl : "page" = path := by simpa [hselected] using hpaths
  have hpage : tree.text? "page" = some " a\n" := by decide +kernel
  obtain rfl : " a\n" = text := by simpa [hpage] using htext
  have htreated : (minifyText " a\n").text = "a" := by decide +kernel
  exact ⟨hrequest, rfl, report, after.state, number, hrun, hprinted, hsuccess, hfound, hnode,
    htreated ▸ hcontents⟩

end MarkupTrim.CommandLine
