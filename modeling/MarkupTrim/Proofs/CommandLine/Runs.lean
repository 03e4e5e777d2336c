import MarkupTrim.CommandLine.Respond
import MarkupTrim.Proofs.CommandLine.Report
import MarkupTrim.Proofs.Files.Texts
import MarkupTrim.Proofs.Files.Watched

/-! # Runs

A run is refused, or it ends with its selection, or it goes along the paths that were selected
(`run_of_conflict`, `run_of_obstacle`, `run_of_selection`). When its files are in a tree, a path
without a text ends the run (`minifyFiles_of_none`); with one, the text is treated and delivered, and
the run goes on (`minifyFiles_of_some`) unless it cannot be written. A run on a watched store does
what it does on the store alone (`follows_respond`). -/

namespace MarkupTrim

/-- What a document of its own makes of a text. -/
def Mode.treat : Mode → String → String
  | .minify, text => (minifyText text).text
  | .passThrough, text => text

theorem text_fragment_new (mode : Mode) (text : String) :
    (({ mode } : Document).fragment text).text = mode.treat text := by
  cases mode <;> rfl

namespace CommandLine

open Files

theorem treat_mode (settings : Settings) : settings.mode.treat =
    fun text => if settings.passThrough then text else (minifyText text).text := by
  unfold Settings.mode
  cases settings.passThrough <;> rfl

/-! ### One path -/

variable {tree : Tree} {path target text : String}

/-- Reading changes nothing, and gives the text there is. -/
theorem readText_spec (tree : Tree) (path : String) :
    ∃ outcome, (readText path : StateM Tree _) tree = (outcome, tree) ∧
      outcome.toOption = tree.text? path := by
  refine ⟨((readText path : StateM Tree _) tree).1, ?_⟩
  have hread : (Store.read path : StateM Tree _) tree = (tree.read path, tree) := rfl
  rw [readText, bind_apply, hread, Tree.text?]
  cases tree.read path with
  | error cause => exact ⟨rfl, rfl⟩
  | ok contents =>
    dsimp only
    cases String.fromUTF8? contents with
    | none => exact ⟨rfl, rfl⟩
    | some text => exact ⟨rfl, rfl⟩

theorem minifyFiles_nil (mode : Mode) (destination : Destination) (tree : Tree) :
    (minifyFiles mode destination [] : StateM Tree Report) tree = ({}, tree) := rfl

/-- A path without a text ends a run. -/
theorem minifyFiles_of_none (mode : Mode) (destination : Destination)
    (h : tree.text? path = none) (rest : List String) :
    ∃ cause, (minifyFiles mode destination (path :: rest) : StateM Tree Report) tree =
      ({ failure := some (.read path cause) }, tree) := by
  obtain ⟨outcome, hread, htext⟩ := readText_spec tree path
  cases outcome with
  | ok text => simp [Except.toOption, h] at htext
  | error cause =>
    refine ⟨cause, ?_⟩
    rw [minifyFiles, bind_apply, hread]
    rfl

/-- A text is treated, that is logged, and it is delivered. -/
theorem minifyFiles_of_some (mode : Mode) (destination : Destination)
    (h : tree.text? path = some text) (rest : List String) :
    let delivered := (deliver destination path (mode.treat text)
      (minifyFiles mode destination rest) : StateM Tree Report) tree
    let stats := (({ mode } : Document).fragment text).document.stats
    (minifyFiles mode destination (path :: rest) : StateM Tree Report) tree =
      (delivered.1.after "" [.minified path stats], delivered.2) := by
  obtain ⟨outcome, hread, htext⟩ := readText_spec tree path
  cases outcome with
  | error cause => simp [Except.toOption, h] at htext
  | ok found =>
    obtain rfl : found = text := by simpa [Except.toOption, h] using htext
    rw [minifyFiles, bind_apply, hread, ← text_fragment_new]
    rfl

/-- What is printed is followed by a line feed. -/
theorem deliver_print (next : StateM Tree Report) : deliver .print path text next tree =
    ((next tree).1.after (text ++ "\n") [], (next tree).2) := rfl

/-- What is written is there when the run goes on; what cannot be written ends it. -/
theorem deliver_of_target {destination : Destination} (ht : destination.target? path = some target)
    (next : StateM Tree Report) : deliver destination path text next tree =
      match tree.write target text.toUTF8 with
      | .ok written => next written
      | .error cause => ({ failure := some (.write target cause) }, tree) := by
  have hwrite : (writeText target text : StateM Tree _) tree =
      match tree.write target text.toUTF8 with
      | .ok written => (.ok (), written)
      | .error cause => (.error cause, tree) := rfl
  rw [deliver, ht]
  dsimp only
  rw [bind_apply, hwrite]
  cases tree.write target text.toUTF8 <;> rfl

/-! ### Watched runs -/

section

variable {σ : Type} [Store (StateM σ)]

theorem follows_deliver {watched : StateM (Watched σ) Report} {alone : StateM σ Report}
    (h : Follows watched alone) (destination : Destination) (path text : String) :
    Follows (deliver destination path text watched) (deliver destination path text alone) := by
  unfold deliver
  cases destination.target? path with
  | none => exact h.bind fun _ => follows_pure _
  | some target =>
    refine (follows_writeText target text).bind fun outcome => ?_
    cases outcome with
    | error cause => exact follows_pure _
    | ok => exact h

theorem follows_minifyFiles (mode : Mode) (destination : Destination) (paths : List String) :
    Follows (minifyFiles mode destination paths : StateM (Watched σ) _)
      (minifyFiles mode destination paths) := by
  induction paths with
  | nil => exact follows_pure _
  | cons path rest ih =>
    refine (follows_readText path).bind fun outcome => ?_
    cases outcome with
    | error cause => exact follows_pure _
    | ok text => exact (follows_deliver ih destination path _).bind fun _ => follows_pure _

theorem follows_run (settings : Settings) :
    Follows (run settings : StateM (Watched σ) _) (run settings) := by
  unfold run
  by_cases hrefused : (settings.output.isSome && settings.inPlace) = true
  · rw [if_pos hrefused, if_pos hrefused]
    exact follows_pure _
  · rw [if_neg hrefused, if_neg hrefused]
    refine (follows_choose _ _).bind fun selection => ?_
    dsimp only
    cases selection.failure with
    | some error => exact follows_pure _
    | none =>
      dsimp only
      split
      · exact follows_pure _
      · exact (follows_minifyFiles _ _ _).bind fun _ => follows_pure _

/-- **A program on a watched store does what it does on the store alone.** -/
theorem follows_respond (arguments : List String) :
    Follows (respond arguments : StateM (Watched σ) _) (respond arguments) := by
  unfold respond
  cases request arguments with
  | run settings => exact (follows_run settings).bind fun _ => follows_pure _
  | _ => exact follows_pure _

/-! ### What is logged on the way -/

/-- Putting a text where it belongs logs nothing. -/
theorem entries_deliver (destination : Destination) (path text : String) (next : StateM σ Report)
    (s : σ) : (deliver destination path text next s).1.entries = [] ∨
      ∃ s', (deliver destination path text next s).1.entries = (next s').1.entries := by
  unfold deliver
  cases destination.target? path with
  | none => exact .inr ⟨s, rfl⟩
  | some target =>
    dsimp only
    rw [bind_apply]
    cases ((writeText target text : StateM σ _) s).1 with
    | error cause => exact .inl rfl
    | ok => exact .inr ⟨_, rfl⟩

/-- Minifying files skips none. -/
theorem entries_minifyFiles {mode : Mode} {destination : Destination} {paths : List String} {s : σ}
    {entry : LogEntry}
    (h : entry ∈ ((minifyFiles mode destination paths : StateM σ Report) s).1.entries) :
    ∃ path stats, entry = .minified path stats := by
  induction paths generalizing s with
  | nil => cases h
  | cons path rest ih =>
    rw [minifyFiles, bind_apply] at h
    cases hread : ((readText path : StateM σ _) s).1 with
    | error cause =>
      rw [hread] at h
      cases h
    | ok text =>
      rw [hread] at h
      dsimp only at h
      rw [bind_apply] at h
      obtain rfl | hmem := List.mem_cons.mp h
      · exact ⟨path, _, rfl⟩
      · rcases entries_deliver destination path (({ mode } : Document).fragment text).text
          (minifyFiles mode destination rest) ((readText path : StateM σ _) s).2 with hnone | ⟨s', hs'⟩
        · rw [hnone] at hmem
          cases hmem
        · rw [hs'] at hmem
          exact ih hmem

theorem level_minifyFiles {mode : Mode} {destination : Destination} {paths : List String} {s : σ}
    {record : String}
    (h : record ∈ ((minifyFiles mode destination paths : StateM σ Report) s).1.records) :
    level record ≠ "DEBUG" := by
  rw [Report.records, List.mem_append] at h
  obtain hentry | hfailure := h
  · obtain ⟨entry, hmem, rfl⟩ := List.mem_map.mp hentry
    obtain ⟨path, stats, rfl⟩ := entries_minifyFiles hmem
    rw [LogEntry.level_record_minified]
    decide
  · obtain ⟨failure, -, rfl⟩ := List.mem_map.mp hfailure
    rw [Failure.level_record]
    decide

/-! ### Whole runs -/

/-- What the log says of the paths that were passed over. -/
def Settings.skips (settings : Settings) (selection : Selection) : List LogEntry :=
  if settings.verbose then selection.skipped.map LogEntry.skipped else []

/-- What keeps a run from its files, when their selection is done. -/
def Settings.obstacle? (settings : Settings) (selection : Selection) : Option Failure :=
  match selection.failure with
  | some error => some (.walk error)
  | none =>
    if settings.output.isSome && selection.selected.length != 1 then
      some (.outputCount selection.selected.length)
    else none

variable {settings : Settings} {s s' : σ} {chosen : Selection} {failure : Failure}

theorem Settings.level_skips {record : String}
    (h : record ∈ (settings.skips chosen).map LogEntry.record) : level record = "DEBUG" := by
  unfold skips at h
  split_ifs at h
  · rw [List.map_map] at h
    obtain ⟨path, -, rfl⟩ := List.mem_map.mp h
    exact LogEntry.level_record_skipped path
  · cases h

/-- A run that is kept from its files logs no text. -/
theorem Settings.level_ne_info {record : String} (h : record ∈
    (({ failure := some failure } : Report).after "" (settings.skips chosen)).records) :
    level record ≠ "INFO" := by
  rw [Report.records_after, List.mem_append] at h
  obtain hskip | hfailure := h
  · rw [level_skips hskip]
    decide
  · obtain rfl : record = failure.record := by simpa [Report.records] using hfailure
    rw [Failure.level_record]
    decide

theorem Settings.obstacle?_eq_none_iff : settings.obstacle? chosen = none ↔
    chosen.failure = none ∧ (settings.output.isSome = true → chosen.selected.length = 1) := by
  unfold obstacle?
  cases chosen.failure <;> simp

theorem Settings.obstacle?_eq_some_iff : settings.obstacle? chosen = some failure ↔
    (∃ error, chosen.failure = some error ∧ failure = .walk error) ∨
      chosen.failure = none ∧ settings.output.isSome = true ∧ chosen.selected.length ≠ 1 ∧
        failure = .outputCount chosen.selected.length := by
  unfold obstacle?
  cases chosen.failure with
  | some error => simp [eq_comm (a := failure)]
  | none => simp [and_assoc, eq_comm (a := failure)]

/-- An output file is refused for a run in place, before anything is done. -/
theorem run_of_conflict (h : (settings.output.isSome && settings.inPlace) = true) (s : σ) :
    (run settings : StateM σ Report) s = ({ failure := some .outputInPlace }, s) := by
  rw [run, if_pos h]
  rfl

/-- A walk that fails ends a run, and so does any number of files but one for an output file. -/
theorem run_of_obstacle (h : (settings.output.isSome && settings.inPlace) = false)
    (hq : (choose settings.extensions settings.inputs : StateM σ _) s = (chosen, s'))
    (ho : settings.obstacle? chosen = some failure) :
    (run settings : StateM σ Report) s =
      (({ failure := some failure } : Report).after "" (settings.skips chosen), s') := by
  rw [run, if_neg (by simp [h]), bind_apply, hq]
  unfold Settings.obstacle? at ho
  dsimp only
  cases hf : chosen.failure with
  | some error =>
    obtain rfl : Failure.walk error = failure := by simpa [hf] using ho
    rfl
  | none =>
    rw [hf] at ho
    dsimp only at ho ⊢
    split_ifs at ho with hcount
    obtain rfl := Option.some.inj ho
    rw [if_pos hcount]
    rfl

/-- Any other run goes along the paths of its selection. -/
theorem run_of_selection (h : (settings.output.isSome && settings.inPlace) = false)
    (hq : (choose settings.extensions settings.inputs : StateM σ _) s = (chosen, s'))
    (ho : settings.obstacle? chosen = none) :
    let outcome := (minifyFiles settings.mode settings.destination chosen.selected :
      StateM σ Report) s'
    (run settings : StateM σ Report) s =
      (outcome.1.after "" (settings.skips chosen), outcome.2) := by
  rw [run, if_neg (by simp [h]), bind_apply, hq]
  unfold Settings.obstacle? at ho
  dsimp only
  cases hf : chosen.failure with
  | some error => simp [hf] at ho
  | none =>
    rw [hf] at ho
    dsimp only at ho ⊢
    split_ifs at ho with hcount
    rw [if_neg hcount]
    rfl

theorem respond_of_run {arguments : List String} (h : request arguments = .run settings) (s : σ) :
    (respond arguments : StateM σ _) s =
      (.ok ((run settings : StateM σ Report) s).1, ((run settings : StateM σ Report) s).2) := by
  rw [respond, h]
  rfl

/-- Selection notes no access. -/
theorem choose_watched {extensions inputs : List String} {w : Watched σ}
    (hq : (choose extensions inputs : StateM σ _) w.state = (chosen, s')) :
    (choose extensions inputs : StateM (Watched σ) _) w = (chosen, { w with state := s' }) := by
  obtain ⟨hchosen, hstate⟩ := Prod.mk.inj (hq.symm.trans (follows_choose extensions inputs w))
  have haccesses := keeps_choose_watched (σ := σ) extensions inputs w
  refine Prod.ext hchosen.symm ?_
  rw [hstate, ← haccesses]

end

/-! ### Selection in a tree -/

/-- What is selected in a tree. -/
def selection (extensions inputs : List String) (tree : Tree) : Selection :=
  ((choose extensions inputs : StateM Tree Selection) tree).1

theorem choose_tree (extensions inputs : List String) (tree : Tree) :
    (choose extensions inputs : StateM Tree _) tree = (selection extensions inputs tree, tree) :=
  Prod.ext rfl (keeps_choose_tree extensions inputs tree)

end CommandLine

end MarkupTrim
