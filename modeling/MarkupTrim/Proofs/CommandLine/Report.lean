import MarkupTrim.CommandLine.Report
import Mathlib.Data.List.Basic
import Mathlib.Data.List.TakeWhile
import Mathlib.Tactic.Common

/-! # Records of the log

A record starts with its level, which is its first word (`level`): what was skipped is told at level
`DEBUG`, what was minified at level `INFO`, and a failure at level `ERROR`. -/

namespace MarkupTrim.CommandLine

/-! ### Levels -/

/-- The level of a record: its first word. -/
def level (record : String) : String := String.ofList (record.toList.takeWhile (· != ' '))

theorem level_append {word : String} (h : ' ' ∉ word.toList) (rest : String) :
    level (word ++ " " ++ rest) = word := by
  have hword : ∀ c ∈ word.toList, (c != ' ') = true := fun c hc =>
    bne_iff_ne.mpr fun hblank => h (hblank ▸ hc)
  have hcut : (word ++ " " ++ rest).toList = word.toList ++ ' ' :: rest.toList := by simp
  rw [level, hcut, List.takeWhile_append_of_pos hword, List.takeWhile_cons_of_neg (by simp),
    List.append_nil, String.ofList_toList]

theorem LogEntry.record_skipped (path : String) :
    (skipped path).record = "DEBUG literal_minify::files: skipped path=" ++ path := rfl

theorem LogEntry.record_minified (path : String) (stats : Stats) : (minified path stats).record =
    "INFO literal_minify::files: minified path=" ++ path ++ " before=" ++
      toString stats.bytesIn ++ " after=" ++ toString stats.bytesOut ++ " saved=" ++
      toString (stats.bytesIn - stats.bytesOut) := by
  have hafter : " after=" = " " ++ "after=" := by simp
  have htext (text : String) : toString text = text := rfl
  unfold record
  dsimp only
  simp only [htext, hafter, Stats.saved, String.append_assoc]

theorem Failure.record_eq (failure : Failure) :
    failure.record = "ERROR literal_minify: " ++ Terminal.spellOut failure.message := rfl

theorem LogEntry.level_record_skipped (path : String) : level (skipped path).record = "DEBUG" := by
  have hcut : (skipped path).record =
      "DEBUG" ++ " " ++ ("literal_minify::files: skipped path=" ++ path) := by
    rw [record_skipped, ← String.append_assoc]
    rfl
  rw [hcut, level_append (by decide)]

theorem LogEntry.level_record_minified (path : String) (stats : Stats) :
    level (minified path stats).record = "INFO" := by
  have hcut : ∃ rest, (minified path stats).record = "INFO" ++ " " ++ rest := by
    refine ⟨"literal_minify::files: minified path=" ++ path ++ " before=" ++
      toString stats.bytesIn ++ " after=" ++ toString stats.bytesOut ++ " saved=" ++
      toString (stats.bytesIn - stats.bytesOut), ?_⟩
    rw [record_minified]
    simp only [← String.append_assoc]
    rfl
  obtain ⟨rest, hrest⟩ := hcut
  rw [hrest, level_append (by decide)]

theorem Failure.level_record (failure : Failure) : level failure.record = "ERROR" := by
  have hcut : failure.record =
      "ERROR" ++ " " ++ ("literal_minify: " ++ Terminal.spellOut failure.message) := by
    rw [record_eq, ← String.append_assoc]
    rfl
  rw [hcut, level_append (by decide)]

namespace Report

/-! ### What comes after what -/

@[simp] theorem printed_after (printed : String) (entries : List LogEntry) (report : Report) :
    (report.after printed entries).printed = printed ++ report.printed := rfl

@[simp] theorem entries_after (printed : String) (entries : List LogEntry) (report : Report) :
    (report.after printed entries).entries = entries ++ report.entries := rfl

@[simp] theorem failure_after (printed : String) (entries : List LogEntry) (report : Report) :
    (report.after printed entries).failure = report.failure := rfl

theorem records_after (printed : String) (entries : List LogEntry) (report : Report) :
    (report.after printed entries).records = entries.map LogEntry.record ++ report.records := by
  rw [records, records, entries_after, failure_after, List.map_append, List.append_assoc]

/-! ### The end of a report -/

variable {report : Report}

theorem exitStatus_eq_zero_iff : report.exitStatus = 0 ↔ report.failure = none := by
  unfold exitStatus
  cases report.failure <;> simp

theorem exitStatus_eq_one_iff :
    report.exitStatus = 1 ↔ ∃ failure, report.failure = some failure := by
  unfold exitStatus
  cases report.failure <;> simp

/-- A record without a line feed is one line of the log. -/
theorem log_eq_map (h : ∀ record ∈ report.records, '\n' ∉ record.toList) :
    report.log = report.records.map dropBlankEnd := by
  rw [log, List.map_eq_flatMap]
  refine List.flatMap_congr fun record hrecord => ?_
  rw [List.splitOn_eq_singleton (h record hrecord), List.map_singleton, String.ofList_toList]

end Report

end MarkupTrim.CommandLine
