import MarkupTrim.Scan.Lemmas
import Mathlib.Tactic.Common

/-! # The loop of the scan

The scan is a loop that takes a step as long as bytes are ahead. Its cursor stands between two
characters at all times (`Placed`), and a step takes it over some of the characters ahead, or over
none and from text into a tag (`exists_stepsOver`). Either way the number of steps that suffice goes
down, so the loop ends (`exists_leads_end`), and what it has completed then are the ranges of the
scan (`exists_leads_ranges`). They lie between characters, and there is something in each
(`Leads.covers`). -/

namespace MarkupTrim.Scan

open Text (byteCount encode)

/-- **That many iterations of the loop** lead from one cursor to another and complete these ranges.
An iteration is a step, and there is none at the end of the fragment. -/
inductive Leads : ℕ → Cursor → List Range → Cursor → Prop
  | here (cursor : Cursor) : Leads 0 cursor [] cursor
  | step {count : ℕ} {cursor last : Cursor} {ranges : List Range} : cursor.ahead ≠ [] →
      Leads count cursor.step.2 ranges last →
      Leads (count + 1) cursor (cursor.step.1.toList ++ ranges) last

/-- The bounded run is the loop, if the loop ends within the bound. -/
theorem Leads.run_eq {count steps : ℕ} {cursor last : Cursor} {ranges : List Range}
    (h : Leads count cursor ranges last) (hend : last.ahead = []) (hsteps : count ≤ steps) :
    cursor.run steps = (ranges, last) := by
  induction h generalizing steps with
  | here cursor => exact Cursor.run_of_ahead_eq_nil steps cursor hend
  | @step count cursor last ranges hne _ ih =>
    cases steps with
    | zero => exact absurd hsteps (Nat.not_succ_le_zero count)
    | succ more =>
      have hrun := ih hend (Nat.le_of_succ_le_succ hsteps)
      rw [Cursor.run, if_neg (by simpa using hne)]
      change (cursor.step.1.toList ++ (cursor.step.2.run more).1, (cursor.step.2.run more).2) = _
      rw [hrun]

/-! ### One iteration -/

/-- The cursor stands between two characters of the text, and the rest of the text is ahead. -/
def Placed (whole : List Char) (cursor : Cursor) : Prop :=
  ∃ pre cs, whole = pre ++ cs ∧ cursor.start = byteCount pre ∧ cursor.ahead = encode cs

/-- The range lies between characters of the text, and there is something in it. -/
def Range.Covers (whole : List Char) (range : Range) : Prop :=
  ∃ pre a b, whole = pre ++ (a ++ b) ∧ a ≠ [] ∧ range.start = byteCount pre ∧
    range.stop = byteCount pre + byteCount a

/-- **What a step goes over**: some of the characters ahead, or none and from text into a tag. -/
theorem exists_stepsOver (state : State) {cs : List Char} (hne : cs ≠ []) :
    ∃ kind next a b, cs = a ++ b ∧ StepsOver kind state next a b ∧
      (a ≠ [] ∨ state = .inText ∧ next = .inTag) := by
  cases state with
  | inText =>
    by_cases hmem : '<' ∈ cs
    · obtain ⟨a, b, rfl, ha⟩ := List.eq_append_cons_of_mem hmem
      exact ⟨.text, .inTag, a, '<' :: b, rfl, stepsOver_text_lt ha b, .inr ⟨rfl, rfl⟩⟩
    · exact ⟨.text, .inText, cs, [], by simp, stepsOver_text hmem, .inl hne⟩
  | inTag =>
    by_cases hmem : '>' ∈ cs
    · obtain ⟨a, b, rfl, ha⟩ := List.eq_append_cons_of_mem hmem
      exact ⟨.tag, .inText, a ++ ['>'], b, by simp, stepsOver_tag_gt ha b, .inl (by simp)⟩
    · exact ⟨.tag, .inTag, cs, [], by simp, stepsOver_tag hmem, .inl hne⟩

/-- Position and state together: fewer steps suffice behind a step than in front of it. -/
theorem need_lt {state next : State} {a b : List Char} (hne : a ++ b ≠ [])
    (h : a ≠ [] ∨ state = .inText ∧ next = .inTag) : need next b < need state (a ++ b) := by
  have htotal := Text.byteCount_pos hne
  rw [Text.byteCount_append] at htotal
  rcases h with ha | ⟨rfl, rfl⟩
  · have := Text.byteCount_pos ha
    cases state <;> cases next <;> simp only [need, Text.byteCount_append] <;> omega
  · simp only [need, Text.byteCount_append]
    omega

/-- **One iteration.** It moves the cursor on and completes the range that the cursor moved over, or
it leaves the cursor where it is, completes nothing and enters a tag. -/
theorem Placed.step_cases {whole : List Char} {cursor : Cursor} (h : Placed whole cursor)
    (hne : cursor.ahead ≠ []) : Placed whole cursor.step.2 ∧
      ((cursor.start < cursor.step.2.start ∧
          ∃ range, cursor.step.1 = some range ∧ range.Covers whole) ∨
        cursor.step = (none, { cursor with state := .inTag }) ∧ cursor.state = .inText) := by
  obtain ⟨state, start, ahead⟩ := cursor
  obtain ⟨pre, cs, rfl, hstart, hahead⟩ := h
  obtain rfl : start = byteCount pre := hstart
  obtain rfl : ahead = encode cs := hahead
  have hcs : cs ≠ [] := by
    rintro rfl
    exact hne rfl
  obtain ⟨kind, next, a, b, rfl, hstep, hkind⟩ := exists_stepsOver state hcs
  rw [hstep pre]
  refine ⟨⟨pre ++ a, b, (List.append_assoc pre a b).symm, rfl, rfl⟩, ?_⟩
  by_cases ha : a = []
  · obtain ⟨rfl, rfl⟩ := hkind.resolve_left (not_not_intro ha)
    subst ha
    refine .inr ⟨?_, rfl⟩
    rw [rangeOver, if_pos rfl, List.append_nil]
    rfl
  · have hpos := Text.byteCount_pos ha
    refine .inl ⟨?_, ⟨kind, byteCount pre, byteCount pre + byteCount a⟩, if_neg ha,
      pre, a, b, rfl, ha, rfl, rfl⟩
    rw [Text.byteCount_append]
    exact Nat.lt_add_of_pos_right hpos

/-- No two iterations in a row leave the cursor where it is. -/
theorem Placed.moves {whole : List Char} {cursor : Cursor} (h : Placed whole cursor)
    (hne : cursor.ahead ≠ []) : cursor.start < cursor.step.2.start ∨
      cursor.step = (none, { cursor with state := .inTag }) ∧ cursor.state = .inText ∧
        cursor.start < cursor.step.2.step.2.start := by
  obtain ⟨hnext, ⟨hmoved, -⟩ | ⟨hstep, htext⟩⟩ := h.step_cases hne
  · exact .inl hmoved
  -- The cursor is in a tag now, so the next iteration is not one that enters a tag.
  · refine .inr ⟨hstep, htext, ?_⟩
    rw [hstep] at hnext ⊢
    obtain ⟨-, ⟨hmoved, -⟩ | ⟨-, hinText⟩⟩ := hnext.step_cases hne
    · exact hmoved
    · cases hinText

/-! ### Where the loop goes -/

theorem Leads.placed {count : ℕ} {cursor last : Cursor} {ranges : List Range} {whole : List Char}
    (h : Leads count cursor ranges last) (hplaced : Placed whole cursor) : Placed whole last := by
  induction h with
  | here => exact hplaced
  | step hne _ ih => exact ih (hplaced.step_cases hne).1

/-- **Each range that is completed** lies between characters and has something in it. -/
theorem Leads.covers {count : ℕ} {cursor last : Cursor} {ranges : List Range} {whole : List Char}
    (h : Leads count cursor ranges last) (hplaced : Placed whole cursor) :
    ∀ range ∈ ranges, range.Covers whole := by
  induction h with
  | here => exact fun range hrange => absurd hrange List.not_mem_nil
  | step hne _ ih =>
    obtain ⟨hnext, hcases⟩ := hplaced.step_cases hne
    intro range hrange
    rcases List.mem_append.mp hrange with hfirst | hrest
    · rw [Option.mem_toList] at hfirst
      rcases hcases with ⟨-, found, hfound, hcovers⟩ | ⟨hstep, -⟩
      · obtain rfl : range = found := Option.some.inj (hfirst.symm.trans hfound)
        exact hcovers
      · rw [hstep] at hfirst
        cases hfirst
    · exact ih hnext range hrest

/-- **The loop ends** at the end of the text, after no more iterations than suffice. -/
theorem exists_leads_end (state : State) (pre cs : List Char) :
    ∃ count ranges last, count ≤ need state cs ∧
      Leads count ⟨state, byteCount pre, encode cs⟩ ranges last ∧ last.ahead = [] := by
  induction hneed : need state cs using Nat.strongRecOn generalizing state pre cs with
  | ind bound ih =>
    subst hneed
    by_cases hne : cs = []
    · subst hne
      exact ⟨0, [], _, Nat.zero_le _, .here _, rfl⟩
    · obtain ⟨kind, next, a, b, rfl, hstep, hkind⟩ := exists_stepsOver state hne
      have hlt := need_lt hne hkind
      obtain ⟨count, ranges, last, hcount, hleads, hend⟩ := ih _ hlt next (pre ++ a) b rfl
      have hnext : Leads count (Cursor.step ⟨state, byteCount pre, encode (a ++ b)⟩).2 ranges last := by
        rw [hstep pre]
        exact hleads
      exact ⟨count + 1, _, last, by omega, .step (Text.encode_ne_nil hne) hnext, hend⟩

/-! ### Offsets -/

/-- Where a cursor stands: at a character boundary, with the bytes from there on ahead. -/
theorem Placed.bounds {whole : List Char} {cursor : Cursor} (h : Placed whole cursor) :
    cursor.start ≤ byteCount whole ∧ cursor.ahead = (encode whole).drop cursor.start ∧
      String.Pos.Raw.IsValid (String.ofList whole) ⟨cursor.start⟩ := by
  obtain ⟨pre, cs, rfl, hstart, hahead⟩ := h
  rw [hstart, hahead, Text.drop_encode_append, Text.byteCount_append]
  exact ⟨Nat.le_add_right _ _, rfl, Text.isValid_byteCount pre cs⟩

/-- What a range that covers something slices. -/
theorem Range.Covers.bounds {whole : List Char} {range : Range} (h : range.Covers whole) :
    range.start < range.stop ∧ range.stop ≤ byteCount whole ∧
      String.Pos.Raw.IsValid (String.ofList whole) ⟨range.start⟩ ∧
      String.Pos.Raw.IsValid (String.ofList whole) ⟨range.stop⟩ ∧
      (range.span (String.ofList whole)).text ≠ "" := by
  obtain ⟨pre, a, b, rfl, ha, hstart, hstop⟩ := h
  have hpos := Text.byteCount_pos ha
  have hvalid := Text.isValid_byteCount (pre ++ a) b
  rw [List.append_assoc, Text.byteCount_append] at hvalid
  rw [Range.span, hstart, hstop, Text.slice_append, Text.byteCount_append, Text.byteCount_append]
  refine ⟨by omega, by omega, Text.isValid_byteCount pre (a ++ b), hvalid, fun hempty => ha ?_⟩
  simpa using congrArg String.toList hempty

/-- **The loop completes the ranges of the scan**, and stands at the end of the fragment then. -/
theorem exists_leads_ranges (whole : List Char) (state : State) :
    let fragment := String.ofList whole
    let scan := ranges fragment state
    ∃ count ≤ 2 * byteCount whole, Leads count ⟨state, 0, encode whole⟩ scan.1
      ⟨scan.2, byteCount whole, []⟩ := by
  intro fragment scan
  obtain ⟨count, found, last, hcount, hleads, hend⟩ := exists_leads_end state [] whole
  have hbound : count ≤ 2 * byteCount whole := by
    cases state <;> simp only [need] at hcount <;> omega
  have hscan : scan = (found, last.state) := by
    simp only [scan, ranges, fragment, Text.bytes_ofList, Text.length_encode]
    rw [← Text.byteCount_nil, hleads.run_eq hend hbound]
  have hplaced : Placed whole last := hleads.placed ⟨[], whole, rfl, rfl, rfl⟩
  have hstart : last.start = byteCount whole := by
    obtain ⟨hle, hahead, -⟩ := hplaced.bounds
    have hdrop := List.drop_eq_nil_iff.mp (hahead.symm.trans hend)
    rw [Text.length_encode] at hdrop
    omega
  rw [hscan, ← hstart, ← hend]
  exact ⟨count, hstart ▸ hbound, hleads⟩

/-- **The loop of the scan is safe and ends.** It ends at the end of the fragment, after at most twice
as many iterations as the fragment has bytes, and the ranges it has completed by then are those of
the scan. Whatever cursor it comes to is at a character boundary, with the bytes from there on ahead,
and the next iteration moves it on, unless it only enters a tag; then the one after that does. Each
range starts in front of where it stops, and does both at character boundaries, so that the span it
stands for can be sliced and is not empty. The spans and the state behind them are those of the
machine that reads one character at a time. -/
theorem loop_safe (fragment : String) (state : State) :
    let bytes := Text.bytes fragment
    let first : Cursor := ⟨state, 0, bytes⟩
    let scan := ranges fragment state
    (∃ count ≤ 2 * bytes.length, Leads count first scan.1 ⟨scan.2, bytes.length, []⟩) ∧
      (∀ count completed cursor, Leads count first completed cursor →
        (cursor.start ≤ bytes.length ∧ cursor.ahead = bytes.drop cursor.start ∧
          String.Pos.Raw.IsValid fragment ⟨cursor.start⟩) ∧
        (cursor.ahead ≠ [] → cursor.start < cursor.step.2.start ∨
          cursor.step = (none, { cursor with state := .inTag }) ∧ cursor.state = .inText ∧
            cursor.start < cursor.step.2.step.2.start)) ∧
      (∀ range ∈ scan.1, range.start < range.stop ∧ range.stop ≤ bytes.length ∧
        String.Pos.Raw.IsValid fragment ⟨range.start⟩ ∧
        String.Pos.Raw.IsValid fragment ⟨range.stop⟩ ∧ (range.span fragment).text ≠ "") ∧
      classify fragment state =
        ((stretches state fragment.toList).map fun s => ⟨s.1, String.ofList s.2⟩,
          state.after fragment.toList) := by
  obtain ⟨whole, rfl⟩ : ∃ whole, fragment = String.ofList whole :=
    ⟨fragment.toList, String.ofList_toList.symm⟩
  intro bytes first scan
  have hbytes : bytes = encode whole := Text.bytes_ofList whole
  have hlength : bytes.length = byteCount whole := by rw [hbytes, Text.length_encode]
  have hfirst : Placed whole first := ⟨[], whole, rfl, rfl, hbytes⟩
  obtain ⟨count, hcount, hleads⟩ := exists_leads_ranges whole state
  rw [← hbytes] at hleads
  rw [hlength]
  refine ⟨⟨count, hcount, hleads⟩, fun _ _ cursor h => ?_, fun range hrange => ?_, ?_⟩
  · have hplaced := h.placed hfirst
    exact ⟨hbytes ▸ hplaced.bounds, hplaced.moves⟩
  · exact (hleads.covers hfirst range hrange).bounds
  · rw [String.toList_ofList]
    exact classify_ofList whole state

/-- The first iteration only enters the tag, and the tag holds a character of two bytes. -/
theorem loop_safe_multibyte :
    let bytes := Text.bytes "<é>x"
    let first : Cursor := ⟨.inText, 0, bytes⟩
    Leads 0 first [] first ∧ first.ahead ≠ [] ∧
      first.step = (none, { first with state := .inTag }) ∧
      first.start < first.step.2.step.2.start ∧
      ⟨.tag, 0, 4⟩ ∈ (ranges "<é>x" .inText).1 ∧ String.Pos.Raw.IsValid "<é>x" ⟨4⟩ ∧
      ∃ count ≤ 10, ∃ cursor, Leads count first (ranges "<é>x" .inText).1 cursor := by
  intro bytes first
  have hahead : first.ahead ≠ [] := by decide +kernel
  have hmem : ⟨.tag, 0, 4⟩ ∈ (ranges "<é>x" .inText).1 := by decide +kernel
  have hstays : ¬ first.start < first.step.2.start := by decide +kernel
  obtain ⟨⟨count, hcount, hends⟩, hcursor, hranges, -⟩ := loop_safe "<é>x" .inText
  obtain ⟨hstep, -, hmoves⟩ := ((hcursor 0 [] first (.here first)).2 hahead).resolve_left hstays
  exact ⟨.here first, hahead, hstep, hmoves, hmem, (hranges _ hmem).2.2.2.1, count, hcount, _, hends⟩

end MarkupTrim.Scan
