import MarkupTrim.Proofs.Document.Silence
import MarkupTrim.Proofs.Spacing.Size

/-! # Bytes over a run

The counts of a document are those of its run: the fragments that are not empty, their bytes, and the
bytes of the texts they were answered with. Condensing only takes away and each gap is paid for by
three bytes, so a fragment grows by a third at most, and by one byte more if a hint put a space in
front of it (`three_mul_utf8ByteSize_fragment_le`). Thirds add up over a run, which gives the bound on
what a document gives out (`byte_counts`). -/

namespace MarkupTrim

open Scan Spacing Text

theorem utf8ByteSize_eq (text : String) : text.utf8ByteSize = byteCount text.toList := by
  rw [← utf8ByteSize_ofList, String.ofList_toList]

theorem three_mul_byteCount_minified_le (state : State) (cs : List Char) :
    3 * byteCount (minified state cs) ≤ 4 * byteCount cs := by
  have hgaps := three_mul_length_gapOffsets_le (condensed state cs)
  have hcondensed := byteCount_le_of_sublist (condensed_sublist state cs)
  rw [minified, byteCount_fill]
  omega

namespace Document

variable {document : Document}

/-! ### What a run takes in and gives out -/

/-- The fragments of a run that are not empty. -/
def inputs (calls : List Call) : List String :=
  (calls.filterMap Call.fragment?).filter (· ≠ "")

/-- The texts that the fragments of a run are answered with. -/
def outputs (document : Document) (calls : List Call) : List String :=
  (transcript document calls).filterMap fun p => p.1.fragment?.map fun _ => p.2.text

/-- The bytes of all texts of a list. -/
def totalBytes : List String → ℕ
  | [] => 0
  | text :: texts => text.utf8ByteSize + totalBytes texts

/-- The number of calls of a run that report a space put in front for a hint. -/
def hintSpaces (document : Document) (calls : List Call) : ℕ :=
  (document.run calls).countP fun reply => .hintConsumed true ∈ reply.events

theorem totalBytes_cons (text : String) (texts : List String) :
    totalBytes (text :: texts) = text.utf8ByteSize + totalBytes texts := rfl

theorem inputs_fragment {text : String} (h : text ≠ "") (calls : List Call) :
    inputs (.fragment text :: calls) = text :: inputs calls := by
  simp [inputs, Call.fragment?, h]

theorem inputs_empty (calls : List Call) : inputs (.fragment "" :: calls) = inputs calls := rfl

theorem inputs_announce (name : String) (calls : List Call) :
    inputs (.announce name :: calls) = inputs calls := rfl

theorem totalBytes_inputs_fragment (text : String) (calls : List Call) :
    totalBytes (inputs (.fragment text :: calls)) =
      text.utf8ByteSize + totalBytes (inputs calls) := by
  by_cases hempty : text = ""
  · subst hempty
    exact (Nat.zero_add _).symm
  · rw [inputs_fragment hempty, totalBytes_cons]

theorem outputs_fragment (document : Document) (text : String) (calls : List Call) :
    outputs document (.fragment text :: calls) =
      (document.fragment text).text :: outputs (document.fragment text).document calls := rfl

theorem totalBytes_outputs_empty (document : Document) (calls : List Call) :
    totalBytes (outputs document (.fragment "" :: calls)) = totalBytes (outputs document calls) := by
  rw [outputs_fragment, ← call_fragment, call_empty, totalBytes_cons]
  exact Nat.zero_add _

theorem outputs_announce (document : Document) (name : String) (calls : List Call) :
    outputs document (.announce name :: calls) =
      outputs (document.announce name).document calls := rfl

theorem hintSpaces_cons (document : Document) (next : Call) (calls : List Call) :
    hintSpaces document (next :: calls) =
      hintSpaces (document.call next).document calls +
        if .hintConsumed true ∈ (document.call next).events then 1 else 0 := by
  simp only [hintSpaces, run, List.countP_cons, decide_eq_true_eq]

/-! ### One fragment -/

theorem stats_fragment (document : Document) {text : String} (h : text ≠ "") :
    (document.fragment text).document.stats =
      document.stats.count text (document.fragment text).text := by
  rcases hm : document.mode <;> simp [fragment, hm, h]

theorem stats_announce (document : Document) (name : String) :
    (document.announce name).document.stats = document.stats := by
  unfold announce
  split <;> rfl

/-- A space is reported iff a hint is pending and a word follows. -/
theorem hintConsumed_mem_events_fragment_iff (hm : document.mode = .minify) (text : String) :
    .hintConsumed true ∈ (document.fragment text).events ↔
      document.hintPending = true ∧ StartsWord (minified document.state text.toList) := by
  by_cases hempty : text.isEmpty = true
  · rw [fragment_of_isEmpty hm hempty, toList_eq_nil_of_isEmpty hempty, minified_nil]
    exact iff_of_false (List.not_mem_nil) fun h => by cases h.2
  · rw [← toList_minify]
    rcases hh : document.hintPending with _ | _
    · simp [fragment, hm, hempty, hh]
    · have hword : StartsWord (minify text document.state).1.toList ↔
          startsWithWord (minify text document.state).1 = true := Iff.rfl
      simp [fragment, hm, hempty, hh, hword]

/-- What a fragment gives, by what it reports. -/
theorem toList_text_fragment_eq (hm : document.mode = .minify) (text : String) :
    (document.fragment text).text.toList =
      spaceIf (.hintConsumed true ∈ (document.fragment text).events) ++
        minified document.state text.toList := by
  rw [toList_text_fragment hm, spaceIf_congr (hintConsumed_mem_events_fragment_iff hm text)]
  rfl

/-- **A space is reported where there is one**: the call gives what it gives without the hint, behind
one space. -/
theorem hintConsumed_mem_events_iff (document : Document) (next : Call) :
    let plain : Document := { document with hintPending := false }
    .hintConsumed true ∈ (document.call next).events ↔
      (document.call next).text = " " ++ (plain.call next).text := by
  intro plain
  rcases hm : document.mode with _ | _
  · have hplain : plain.mode = .minify := hm
    cases next with
    | fragment text =>
      have htext := toList_text_fragment_eq hm text
      have hbare : (plain.fragment text).text.toList = minified document.state text.toList :=
        toList_text_fragment_of_no_hint hplain rfl text
      rw [← hbare] at htext
      exact (eq_or_spaced htext).2.symm
    | announce name =>
      have htext : (plain.announce name).text = (document.announce name).text :=
        (text_announce hplain name).trans (text_announce hm name).symm
      refine iff_of_false (by simp [call, announce, hm]) ?_
      rw [call, call, htext]
      exact ne_space_append _
  · have hplain : plain.mode = .passThrough := hm
    have htext : (plain.call next).text = (document.call next).text :=
      (call_passThrough hplain next).1.trans (call_passThrough hm next).1.symm
    refine iff_of_false (by cases next <;> simp [call, fragment, announce, hm]) ?_
    rw [htext]
    exact ne_space_append _

theorem three_mul_utf8ByteSize_fragment_le (document : Document) (text : String) :
    3 * (document.fragment text).text.utf8ByteSize ≤
      4 * text.utf8ByteSize +
        3 * if .hintConsumed true ∈ (document.fragment text).events then 1 else 0 := by
  rcases hm : document.mode with _ | _
  · have hbound := three_mul_byteCount_minified_le document.state text.toList
    rw [utf8ByteSize_eq, utf8ByteSize_eq, toList_text_fragment_eq hm, byteCount_append]
    split_ifs with h
    · have hspace : byteCount [' '] = 1 := by decide
      rw [spaceIf_pos h, hspace]
      omega
    · rw [spaceIf_neg h, byteCount_nil]
      omega
  · have htext : (document.fragment text).text = text := (call_passThrough hm (.fragment text)).1
    rw [htext]
    omega

/-! ### A run -/

/-- **The counts behind a run** are those in front of it and what the run took in and gave out. -/
theorem stats_after (document : Document) (calls : List Call) :
    (document.after calls).stats =
      { fragments := document.stats.fragments + (inputs calls).length
        bytesIn := document.stats.bytesIn + totalBytes (inputs calls)
        bytesOut := document.stats.bytesOut + totalBytes (outputs document calls) } := by
  induction calls generalizing document with
  | nil => rfl
  | cons next calls ih =>
    rw [after_cons, ih]
    cases next with
    | fragment text =>
      by_cases hempty : text = ""
      · subst hempty
        rw [call_empty, inputs_empty, totalBytes_outputs_empty]
      · rw [call_fragment, stats_fragment document hempty, inputs_fragment hempty,
          outputs_fragment, totalBytes_cons, totalBytes_cons, List.length_cons, Stats.count,
          Stats.mk.injEq]
        exact ⟨Nat.add_right_comm _ _ _, Nat.add_assoc _ _ _, Nat.add_assoc _ _ _⟩
    | announce name =>
      rw [call_announce, stats_announce]
      rfl

/-- Thirds of fragments add up to thirds of the run. -/
theorem three_mul_totalBytes_outputs_le (document : Document) (calls : List Call) :
    3 * totalBytes (outputs document calls) ≤
      4 * totalBytes (inputs calls) + 3 * hintSpaces document calls := by
  induction calls generalizing document with
  | nil => exact Nat.le_refl 0
  | cons next calls ih =>
    rw [hintSpaces_cons]
    cases next with
    | fragment text =>
      have hstep := three_mul_utf8ByteSize_fragment_le document text
      have hrest := ih (document.fragment text).document
      rw [outputs_fragment, totalBytes_cons, totalBytes_inputs_fragment, call_fragment]
      omega
    | announce name =>
      have hrest := ih (document.announce name).document
      rw [outputs_announce, inputs_announce, call_announce]
      omega

theorem totalBytes_outputs_of_passThrough (hm : document.mode = .passThrough)
    (calls : List Call) : totalBytes (outputs document calls) = totalBytes (inputs calls) := by
  induction calls generalizing document with
  | nil => rfl
  | cons next calls ih =>
    have ih := ih ((mode_call document next).trans hm)
    cases next with
    | fragment text =>
      have htext : (document.fragment text).text = text := (call_passThrough hm (.fragment text)).1
      rw [outputs_fragment, totalBytes_cons, totalBytes_inputs_fragment, htext]
      exact congrArg (text.utf8ByteSize + ·) ih
    | announce name => exact ih

/-- **Bytes over a run.** Behind a run of a document with no counts yet the counts are the number of the
fragments that are not empty, their bytes, and the bytes of all texts that fragments were answered
with; what is saved is the difference, but never less than nothing. A run gives out at most a third
more than it takes in, and one byte for each space that a hint put in front; in pass-through mode it
gives out what it takes in. -/
theorem byte_counts (mode : Mode) (state : State) (hintPending : Bool) (calls : List Call) :
    let document : Document := { mode, state, hintPending }
    let stats := (document.after calls).stats
    stats.fragments = (inputs calls).length ∧
      stats.bytesIn = totalBytes (inputs calls) ∧
      stats.bytesOut = totalBytes (outputs document calls) ∧
      (stats.saved : ℤ) = max ((stats.bytesIn : ℤ) - stats.bytesOut) 0 ∧
      stats.bytesOut ≤ stats.bytesIn + stats.bytesIn / 3 + hintSpaces document calls ∧
      (mode = .passThrough → stats.bytesOut = stats.bytesIn) := by
  intro document stats
  have hstats : stats = _ := stats_after document calls
  have hfragments : stats.fragments = (inputs calls).length := by rw [hstats]; exact Nat.zero_add _
  have hin : stats.bytesIn = totalBytes (inputs calls) := by rw [hstats]; exact Nat.zero_add _
  have hout : stats.bytesOut = totalBytes (outputs document calls) := by
    rw [hstats]
    exact Nat.zero_add _
  refine ⟨hfragments, hin, hout, ?_, ?_, fun hm => ?_⟩
  · rw [Stats.saved]
    omega
  · have hbound := three_mul_totalBytes_outputs_le document calls
    rw [hin, hout]
    omega
  · rw [hin, hout]
    exact totalBytes_outputs_of_passThrough hm calls

/-- A run in pass-through mode gives out what it takes in. -/
theorem byte_counts_passThrough :
    let document : Document := { mode := .passThrough }
    let stats := (document.after [.fragment " <p ", .announce "a", .fragment "", .fragment "é"]).stats
    document.mode = .passThrough ∧ stats.bytesOut = stats.bytesIn ∧ stats.bytesIn = 6 := by
  intro document stats
  have hout : stats.bytesOut = stats.bytesIn :=
    (byte_counts .passThrough .inText false _).2.2.2.2.2 rfl
  exact ⟨rfl, hout, by decide +kernel⟩

end Document

end MarkupTrim
