import MarkupTrim.Proofs.CommandLine.Runs
import MarkupTrim.Proofs.Document.Bytes
import Mathlib.Algebra.Ring.Nat

/-! # What the log says of a run

The log of a run is told by the accesses that the run makes to files, whatever the store that holds
them (`log_accounts`): a text that was read has a record, and so has an access that failed, which is
the last one. The ways in which a run can go along its paths are those of `Course`, and each run
follows one (`exists_course`). What a course logs, reads and prints, and where it ends, goes by
induction on it. -/

namespace MarkupTrim.CommandLine

open Files

/-! ### Accesses -/

/-- The path that was to be read, whether or not it could be. -/
def readPath? : Access → Option String
  | .read path _ => some path
  | .write _ _ _ => none

/-- What the log tells of a text that was read: the bytes that the file had then, and the bytes of
what was made of it. -/
structure Minified where
  path : String
  before : ℕ
  after : ℕ
deriving DecidableEq

/-- The record of a text that was read. Nothing is saved on a text that has grown. -/
def Minified.line (told : Minified) : String :=
  "INFO literal_minify::files: minified path=" ++ told.path ++ " before=" ++
    toString told.before ++ " after=" ++ toString told.after ++ " saved=" ++
    toString (told.before - told.after)

/-- What the log tells of an access, if it is a text that was read. -/
def minifiedOf? (treat : String → String) : Access → Option Minified
  | .read path (.ok contents) => (String.fromUTF8? contents).map fun text =>
    { path, before := contents.size, after := (treat text).utf8ByteSize }
  | _ => none

/-- The failure that an access is, if it is one. Contents that are no text are a failure to read. -/
def failureOf? : Access → Option Failure
  | .read path (.error cause) => some (.read path cause)
  | .read path (.ok contents) =>
    if (String.fromUTF8? contents).isSome then none else some (.read path .notUtf8)
  | .write path _ (.error cause) => some (.write path cause)
  | .write _ _ (.ok _) => none

/-- The last access is the failure, and the ones in front of it are none. -/
def EndsIn (failure : Failure) (accesses : List Access) : Prop :=
  ∃ front last, accesses = front ++ [last] ∧ failureOf? last = some failure ∧
    ∀ access ∈ front, failureOf? access = none

variable {failure : Failure} {access : Access} {accesses : List Access}

theorem endsIn_singleton (h : failureOf? access = some failure) : EndsIn failure [access] :=
  ⟨[], access, rfl, h, by simp⟩

theorem EndsIn.cons (h : EndsIn failure accesses) (hworked : failureOf? access = none) :
    EndsIn failure (access :: accesses) := by
  obtain ⟨front, last, rfl, hlast, hfront⟩ := h
  exact ⟨access :: front, last, rfl, hlast, List.forall_mem_cons.mpr ⟨hworked, hfront⟩⟩

theorem failureOf?_read (path text : String) :
    failureOf? (.read path (.ok text.toUTF8)) = none := by
  rw [failureOf?, fromUTF8?_toUTF8]
  rfl

theorem failureOf?_read_of_none {contents : ByteArray} (h : String.fromUTF8? contents = none)
    (path : String) : failureOf? (.read path (.ok contents)) = some (.read path .notUtf8) := by
  rw [failureOf?, h]
  rfl

/-- The paths were taken one by one up to their end, or up to an access that is the failure. -/
def Stops (paths : List String) (accesses : List Access) (failure? : Option Failure) : Prop :=
  (failure? = none ∧ accesses.filterMap readPath? = paths ∧
    ∀ access ∈ accesses, failureOf? access = none) ∨
  ∃ failure, failure? = some failure ∧ EndsIn failure accesses

theorem Stops.read {paths : List String} {failure? : Option Failure}
    (h : Stops paths accesses failure?) (path text : String) :
    Stops (path :: paths) (.read path (.ok text.toUTF8) :: accesses) failure? := by
  have hread := failureOf?_read path text
  obtain ⟨hnone, hreads, hworked⟩ | ⟨failure, hsome, hends⟩ := h
  · exact Or.inl ⟨hnone, congrArg (path :: ·) hreads, List.forall_mem_cons.mpr ⟨hread, hworked⟩⟩
  · exact Or.inr ⟨failure, hsome, hends.cons hread⟩

theorem Stops.write {paths : List String} {failure? : Option Failure}
    (h : Stops paths accesses failure?) (target : String) (contents : ByteArray) :
    Stops paths (.write target contents (.ok ()) :: accesses) failure? := by
  obtain ⟨hnone, hreads, hworked⟩ | ⟨failure, hsome, hends⟩ := h
  · exact Or.inl ⟨hnone, hreads, List.forall_mem_cons.mpr ⟨rfl, hworked⟩⟩
  · exact Or.inr ⟨failure, hsome, hends.cons rfl⟩

/-- Nothing is told of an access that is a failure. -/
theorem minifiedOf?_of_failure {treat : String → String} (h : failureOf? access = some failure) :
    minifiedOf? treat access = none := by
  unfold minifiedOf?
  split
  · next path contents =>
    cases htext : String.fromUTF8? contents with
    | none => rfl
    | some text => simp [failureOf?, htext] at h
  · rfl

theorem minifiedOf?_read (treat : String → String) (path text : String) :
    minifiedOf? treat (.read path (.ok text.toUTF8)) =
      some { path, before := text.utf8ByteSize, after := (treat text).utf8ByteSize } := by
  rw [minifiedOf?, fromUTF8?_toUTF8]
  rfl

/-- What a run logs of a text. -/
def logged (mode : Mode) (path text : String) : LogEntry :=
  .minified path (({ mode } : Document).fragment text).document.stats

theorem stats_fragment_new (mode : Mode) (text : String) :
    (({ mode } : Document).fragment text).document.stats =
      { fragments := if text = "" then 0 else 1
        bytesIn := text.utf8ByteSize
        bytesOut := (mode.treat text).utf8ByteSize } := by
  rw [← text_fragment_new]
  by_cases h : text = ""
  · subst h
    cases mode <;> rfl
  · rw [Document.stats_fragment _ h, if_neg h]
    simp [Stats.count]

theorem record_logged (mode : Mode) (path text : String) : (logged mode path text).record =
    Minified.line
      { path, before := text.utf8ByteSize, after := (mode.treat text).utf8ByteSize } := by
  rw [logged, stats_fragment_new, LogEntry.record_minified]
  rfl

/-! ### Courses -/

/-- How a run can go along paths: the accesses that it makes, and its report. -/
inductive Course (mode : Mode) (destination : Destination) :
    List String → List Access → Report → Prop
  /-- All paths were taken. -/
  | done : Course mode destination [] [] {}
  /-- A path without a text ends the run. -/
  | unread {path : String} {rest : List String} {outcome : Except AccessError ByteArray}
      {failure : Failure} (hread : failureOf? (.read path outcome) = some failure) :
      Course mode destination (path :: rest) [.read path outcome] { failure := some failure }
  /-- A text is printed. -/
  | printed {path text : String} {rest : List String} {accesses : List Access} {report : Report}
      (hnone : destination.target? path = none) (more : Course mode destination rest accesses report) :
      Course mode destination (path :: rest) (.read path (.ok text.toUTF8) :: accesses)
        (report.after (mode.treat text ++ "\n") [logged mode path text])
  /-- A text is written. -/
  | written {path text target : String} {rest : List String} {accesses : List Access}
      {report : Report} (htarget : destination.target? path = some target)
      (more : Course mode destination rest accesses report) :
      Course mode destination (path :: rest)
        (.read path (.ok text.toUTF8) :: .write target (mode.treat text).toUTF8 (.ok ()) :: accesses)
        (report.after "" [logged mode path text])
  /-- A text that cannot be written ends the run, when it was logged. -/
  | unwritten {path text target : String} {rest : List String} (cause : AccessError)
      (htarget : destination.target? path = some target) :
      Course mode destination (path :: rest)
        [.read path (.ok text.toUTF8), .write target (mode.treat text).toUTF8 (.error cause)]
        { entries := [logged mode path text], failure := some (.write target cause) }

variable {mode : Mode} {destination : Destination} {paths : List String} {report : Report}

section

variable {σ : Type} [Store (StateM σ)]

/-- Reading is noted, and gives the text there is. -/
theorem readText_watched (path : String) (w : Watched σ) : ∃ result outcome state,
    (readText path : StateM (Watched σ) _) w =
      (result, { state, accesses := w.accesses ++ [.read path outcome] }) ∧
    ((∃ cause, result = .error cause ∧
        failureOf? (.read path outcome) = some (.read path cause)) ∨
      ∃ text : String, result = .ok text ∧ outcome = .ok text.toUTF8) := by
  have hread : (Store.read path : StateM (Watched σ) _) w =
      (((Store.read path : StateM σ _) w.state).1,
        { state := ((Store.read path : StateM σ _) w.state).2
          accesses := w.accesses ++ [.read path ((Store.read path : StateM σ _) w.state).1] }) := rfl
  refine ⟨((readText path : StateM (Watched σ) _) w).1, ((Store.read path : StateM σ _) w.state).1,
    ((Store.read path : StateM σ _) w.state).2, ?_⟩
  rw [readText, bind_apply, hread]
  cases ((Store.read path : StateM σ _) w.state).1 with
  | error cause => exact ⟨rfl, .inl ⟨cause, rfl, rfl⟩⟩
  | ok contents =>
    dsimp only
    cases htext : String.fromUTF8? contents with
    | none => exact ⟨rfl, .inl ⟨.notUtf8, rfl, failureOf?_read_of_none htext path⟩⟩
    | some text => exact ⟨rfl, .inr ⟨text, rfl, by rw [fromUTF8?_eq_some_iff.mp htext]⟩⟩

/-- Writing is noted. -/
theorem writeText_watched (path text : String) (w : Watched σ) : ∃ outcome state,
    (writeText path text : StateM (Watched σ) _) w =
      (outcome, { state, accesses := w.accesses ++ [.write path text.toUTF8 outcome] }) :=
  ⟨_, _, rfl⟩

/-- A text that was read is delivered, and the run goes on unless it cannot be written. -/
theorem course_deliver {path : String} {rest : List String} (text : String)
    {next : StateM (Watched σ) Report}
    (hnext : ∀ w, ∃ accesses, Course mode destination rest accesses (next w).1 ∧
      (next w).2.accesses = w.accesses ++ accesses) (w : Watched σ) :
    let delivered := deliver destination path (mode.treat text) next w
    ∃ accesses, Course mode destination (path :: rest) (.read path (.ok text.toUTF8) :: accesses)
        (delivered.1.after "" [logged mode path text]) ∧
      delivered.2.accesses = w.accesses ++ accesses := by
  dsimp only
  cases htarget : destination.target? path with
  | none =>
    obtain ⟨accesses, hcourse, haccesses⟩ := hnext w
    rw [deliver, htarget]
    exact ⟨accesses, .printed htarget hcourse, haccesses⟩
  | some target =>
    obtain ⟨outcome, state, hwrite⟩ := writeText_watched target (mode.treat text) w
    rw [deliver, htarget]
    dsimp only
    rw [bind_apply, hwrite]
    cases outcome with
    | error cause => exact ⟨_, .unwritten cause htarget, rfl⟩
    | ok =>
      obtain ⟨accesses, hcourse, haccesses⟩ := hnext
        { state, accesses := w.accesses ++ [.write target (mode.treat text).toUTF8 (.ok ())] }
      refine ⟨_, .written htarget hcourse, haccesses.trans ?_⟩
      rw [List.append_assoc, List.singleton_append]

/-- **Each run follows a course.** -/
theorem exists_course (mode : Mode) (destination : Destination) (paths : List String)
    (w : Watched σ) :
    let outcome := (minifyFiles mode destination paths : StateM (Watched σ) Report) w
    ∃ accesses, Course mode destination paths accesses outcome.1 ∧
      outcome.2.accesses = w.accesses ++ accesses := by
  induction paths generalizing w with
  | nil => exact ⟨[], .done, (List.append_nil _).symm⟩
  | cons path rest ih =>
    obtain ⟨result, outcome, state, hread, hcases⟩ := readText_watched path w
    rw [minifyFiles, bind_apply, hread]
    obtain ⟨cause, rfl, hfailed⟩ | ⟨text, rfl, rfl⟩ := hcases
    · exact ⟨_, .unread hfailed, rfl⟩
    · dsimp only
      rw [bind_apply, text_fragment_new]
      obtain ⟨accesses, hcourse, haccesses⟩ := course_deliver text ih
        { state, accesses := w.accesses ++ [.read path (.ok text.toUTF8)] }
      refine ⟨_, hcourse, haccesses.trans ?_⟩
      rw [List.append_assoc, List.singleton_append]

end

/-! ### What a course comes to -/

/-- The log has a record for each text that was read, and for nothing else. -/
theorem Course.records_eq (h : Course mode destination paths accesses report) :
    report.entries.map LogEntry.record =
      (accesses.filterMap (minifiedOf? mode.treat)).map Minified.line := by
  induction h with
  | done => rfl
  | unread hread =>
    rw [List.filterMap_cons_none (minifiedOf?_of_failure hread)]
    rfl
  | printed hnone more ih =>
    rw [Report.entries_after, List.filterMap_cons_some (minifiedOf?_read ..), List.map_cons, ← ih,
      ← record_logged]
    rfl
  | written htarget more ih =>
    rw [Report.entries_after, List.filterMap_cons_some (minifiedOf?_read ..),
      List.filterMap_cons_none rfl, List.map_cons, ← ih, ← record_logged]
    rfl
  | unwritten cause htarget =>
    rw [List.filterMap_cons_some (minifiedOf?_read ..)]
    exact congrArg (· :: []) (record_logged mode _ _)

/-- Paths are read in order. -/
theorem Course.reads_prefix (h : Course mode destination paths accesses report) :
    accesses.filterMap readPath? <+: paths := by
  induction h with
  | done => exact List.prefix_rfl
  | unread hread => exact ⟨_, rfl⟩
  | printed hnone more ih => exact (List.prefix_cons_inj _).mpr ih
  | written htarget more ih => exact (List.prefix_cons_inj _).mpr ih
  | unwritten cause htarget => exact ⟨_, rfl⟩

/-- A course takes all its paths, or ends with the first access that is a failure. -/
theorem Course.stops (h : Course mode destination paths accesses report) :
    Stops paths accesses report.failure := by
  induction h with
  | done => exact .inl ⟨rfl, rfl, by simp⟩
  | unread hread => exact .inr ⟨_, rfl, endsIn_singleton hread⟩
  | printed hnone more ih => exact ih.read _ _
  | written htarget more ih => exact (ih.write _ _).read _ _
  | @unwritten path text _ _ cause htarget =>
    exact .inr ⟨_, rfl, (endsIn_singleton rfl).cons (failureOf?_read path text)⟩

/-- How much a run that prints has printed: the bytes of its texts, and a line feed for each. -/
theorem Course.utf8ByteSize_printed (h : Course mode destination paths accesses report)
    (hprint : ∀ path, destination.target? path = none) :
    let told := accesses.filterMap (minifiedOf? mode.treat)
    report.printed.utf8ByteSize = (told.map Minified.after).sum + told.length := by
  induction h with
  | done => rfl
  | unread hread =>
    dsimp only
    rw [List.filterMap_cons_none (minifiedOf?_of_failure hread)]
    rfl
  | printed hnone more ih =>
    have hbreak : "\n".utf8ByteSize = 1 := rfl
    dsimp only at ih ⊢
    rw [Report.printed_after, String.utf8ByteSize_append, String.utf8ByteSize_append, ih, hbreak,
      List.filterMap_cons_some (minifiedOf?_read ..), List.map_cons, List.sum_cons, List.length_cons]
    dsimp only
    omega
  | written htarget more ih => simp [hprint] at htarget
  | unwritten cause htarget => simp [hprint] at htarget

/-! ### Whole runs -/

/-- What ends a run before it begins with its files, given what it selects. -/
def Settings.early? (settings : Settings) (chosen : Selection) : Option Failure :=
  if settings.output.isSome && settings.inPlace then some .outputInPlace
  else settings.obstacle? chosen

/-- The accesses of a run account for what it logs and prints. -/
structure Accounted (mode : Mode) (destination : Destination) (early? : Option Failure)
    (paths : List String) (accesses : List Access) (report : Report) : Prop where
  records : report.entries.map LogEntry.record =
    (accesses.filterMap (minifiedOf? mode.treat)).map Minified.line
  reads : accesses.filterMap readPath? <+: paths
  /-- The run ended early, or it went along the paths. -/
  stops : (∃ failure, early? = some failure ∧ report.failure = some failure ∧ accesses = []) ∨
    early? = none ∧ Stops paths accesses report.failure
  printed : (∀ path, destination.target? path = none) →
    let told := accesses.filterMap (minifiedOf? mode.treat)
    report.printed.utf8ByteSize = (told.map Minified.after).sum + told.length

theorem Course.accounted (h : Course mode destination paths accesses report) :
    Accounted mode destination none paths accesses report where
  records := h.records_eq
  reads := h.reads_prefix
  stops := .inr ⟨rfl, h.stops⟩
  printed := h.utf8ByteSize_printed

/-- A run that ends early has taken no course. -/
theorem accounted_early (mode : Mode) (destination : Destination) (failure : Failure)
    (paths : List String) :
    Accounted mode destination (some failure) paths [] { failure := some failure } where
  records := rfl
  reads := List.nil_prefix
  stops := .inl ⟨failure, rfl, rfl, rfl⟩
  printed := fun _ => rfl

/-- The paths that a run says it passed over: none if it is not to tell, or is refused at once. -/
def Settings.toldSkipped (settings : Settings) (chosen : Selection) : List String :=
  if settings.verbose && !(settings.output.isSome && settings.inPlace) then chosen.skipped else []

theorem skips_eq {settings : Settings} (hc : (settings.output.isSome && settings.inPlace) = false)
    (chosen : Selection) :
    settings.skips chosen = (settings.toldSkipped chosen).map LogEntry.skipped := by
  rw [Settings.skips, Settings.toldSkipped, hc, Bool.not_false, Bool.and_true]
  split_ifs <;> rfl

/-- A run tells what it skipped, and its accesses account for the rest. -/
theorem run_accounted {σ : Type} [Store (StateM σ)] (settings : Settings) (s : σ) :
    let outcome := (run settings : StateM (Watched σ) Report) { state := s }
    let chosen := ((choose settings.extensions settings.inputs : StateM σ Selection) s).1
    ∃ report, outcome.1 = report.after "" ((settings.toldSkipped chosen).map LogEntry.skipped) ∧
      Accounted settings.mode settings.destination (settings.early? chosen) chosen.selected
        outcome.2.accesses report := by
  intro outcome chosen
  have hchoose : (choose settings.extensions settings.inputs : StateM σ Selection) s =
      (chosen, ((choose settings.extensions settings.inputs : StateM σ Selection) s).2) := rfl
  have hq := choose_watched (w := { state := s }) hchoose
  cases hc : settings.output.isSome && settings.inPlace with
  | true =>
    have hrun : outcome = _ := run_of_conflict hc _
    have htold : settings.toldSkipped chosen = [] := by simp [Settings.toldSkipped, hc]
    have hearly : settings.early? chosen = some .outputInPlace := by rw [Settings.early?, if_pos hc]
    rw [hrun, htold, hearly]
    exact ⟨_, rfl, accounted_early ..⟩
  | false =>
    have hearly : settings.early? chosen = settings.obstacle? chosen := by
      rw [Settings.early?, hc, if_neg Bool.false_ne_true]
    rw [← skips_eq hc, hearly]
    cases hobstacle : settings.obstacle? chosen with
    | some failure =>
      have hrun : outcome = _ := run_of_obstacle hc hq hobstacle
      rw [hrun]
      exact ⟨_, rfl, accounted_early ..⟩
    | none =>
      have hrun : outcome = _ := run_of_selection hc hq hobstacle
      obtain ⟨accesses, hcourse, haccesses⟩ := exists_course settings.mode settings.destination
        chosen.selected
        { state := ((choose settings.extensions settings.inputs : StateM σ Selection) s).2 }
      obtain rfl : _ = accesses := haccesses
      rw [hrun]
      exact ⟨_, rfl, hcourse.accounted⟩

/-- A walk that fails ends a run with what it had yielded, the directory that cannot be listed
included. -/
example :
    let nodes : List (Location × Node) :=
      [(["work", "d"], .directory), (["work", "d", "a.html"], .file 0),
        (["work", "d", "sub"], .directory), (["work", "d", "z.html"], .file 1)]
    let tree : Tree :=
      { nodes := .ofList nodes
        refusal? := fun location _ => if location = ["work", "d", "sub"] then some .denied else none }
    let settings : Settings := { inputs := ["d"], verbose := true }
    ((run settings : StateM Tree Report) tree).1.records =
      ["DEBUG literal_minify::files: skipped path=d",
        "DEBUG literal_minify::files: skipped path=d/sub",
        "ERROR literal_minify: failed to walk directory: IO error for operation on d/sub: " ++
          "Permission denied (os error 13)"] := by
  decide +kernel

end MarkupTrim.CommandLine
