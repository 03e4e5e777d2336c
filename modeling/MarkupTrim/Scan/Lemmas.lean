import MarkupTrim.Scan.Cursor
import MarkupTrim.Scan.Machine

/-!
# The two ways to scan

A scan over bytes finds the spans that the machine finds one character at a time, and ends in the
machine's state (`classify_ofList`). The number of its steps is at most twice the number of bytes
ahead of it, one less within a tag (`need`): a step that moves nothing enters a tag, and the next
step moves on.
-/

namespace MarkupTrim.Scan

open Text (byteCount encode)

/-- The number of steps that suffice for what is ahead. -/
def need (state : State) (cs : List Char) : Nat :=
  match state with
  | .inText => 2 * byteCount cs
  | .inTag => 2 * byteCount cs - 1

theorem need_of_text {a b : List Char} {steps : Nat}
    (h : need .inText (a ++ '<' :: b) ≤ steps + 1) : need .inTag ('<' :: b) ≤ steps := by
  have : '<'.utf8Size = 1 := by decide
  simp only [need, Text.byteCount_append, Text.byteCount_cons] at h ⊢
  omega

theorem need_of_tag {a b : List Char} {steps : Nat}
    (h : need .inTag (a ++ '>' :: b) ≤ steps + 1) : need .inText b ≤ steps := by
  have : '>'.utf8Size = 1 := by decide
  simp only [need, Text.byteCount_append, Text.byteCount_cons] at h ⊢
  omega

theorem Cursor.run_of_ahead_eq_nil (steps : Nat) (cursor : Cursor) (h : cursor.ahead = []) :
    cursor.run steps = ([], cursor) := by
  cases steps <;> simp [Cursor.run, h]

/-! ### Steps -/

/-- The range that a step over the characters `a` completes. -/
def rangeOver (kind : Kind) (pre a : List Char) : Option Range :=
  if a = [] then none else some ⟨kind, byteCount pre, byteCount pre + byteCount a⟩

theorem Cursor.range?_eq (state : State) (ahead : List UInt8) (kind : Kind) (pre a : List Char) :
    Cursor.range? ⟨state, byteCount pre, ahead⟩ kind (byteCount a) = rangeOver kind pre a := by
  unfold Cursor.range? rangeOver
  by_cases hne : a = []
  · rw [if_pos hne, hne]
    rfl
  · rw [if_neg hne, if_neg (Nat.ne_of_gt (Text.byteCount_pos hne))]

/-- A step takes the cursor over the characters `a`, in front of `b`. -/
def StepsOver (kind : Kind) (state next : State) (a b : List Char) : Prop :=
  ∀ pre, Cursor.step ⟨state, byteCount pre, encode (a ++ b)⟩ =
    (rangeOver kind pre a, ⟨next, byteCount (pre ++ a), encode b⟩)

theorem stepsOver_text_lt {a : List Char} (ha : '<' ∉ a) (b : List Char) :
    StepsOver .text .inText .inTag a ('<' :: b) := fun pre => by
  simp only [Cursor.step, Text.findIdx?_encode (d := '<') (by decide) b ha, Cursor.advance,
    Text.drop_encode_append, Cursor.range?_eq, Text.byteCount_append]

theorem stepsOver_text {a : List Char} (ha : '<' ∉ a) :
    StepsOver .text .inText .inText a [] := fun pre => by
  have hend := List.drop_of_length_le (Nat.le_of_eq (Text.length_encode a))
  simp only [List.append_nil, Cursor.step, Text.findIdx?_encode_eq_none (d := '<') (by decide) ha,
    Cursor.advance, Text.length_encode, hend, Cursor.range?_eq, Text.byteCount_append]
  rfl

theorem stepsOver_tag_gt {a : List Char} (ha : '>' ∉ a) (b : List Char) :
    StepsOver .tag .inTag .inText (a ++ ['>']) b := fun pre => by
  have hcs : (a ++ ['>']) ++ b = a ++ '>' :: b := by simp
  have hone : byteCount a + 1 = byteCount (a ++ ['>']) := by
    simp [show '>'.utf8Size = 1 by decide]
  simp only [hcs, Cursor.step, Text.findIdx?_encode (d := '>') (by decide) b ha, Cursor.advance, hone,
    Cursor.range?_eq]
  rw [← hcs, Text.drop_encode_append, Text.byteCount_append pre]

theorem stepsOver_tag {a : List Char} (ha : '>' ∉ a) :
    StepsOver .tag .inTag .inTag a [] := fun pre => by
  have hend := List.drop_of_length_le (Nat.le_of_eq (Text.length_encode a))
  simp only [List.append_nil, Cursor.step, Text.findIdx?_encode_eq_none (d := '>') (by decide) ha,
    Cursor.advance, Text.length_encode, hend, Cursor.range?_eq, Text.byteCount_append]
  rfl

/-! ### Runs -/

/-- A result of scanning the end `cs` of a text is right: its ranges stand for the machine's spans,
and it is at the end of the text in the machine's state. -/
structure Finds (whole : List Char) (state : State) (cs : List Char)
    (result : List Range × Cursor) : Prop where
  spans : result.1.map (Range.span (String.ofList whole)) =
    (stretches state cs).map fun s => ⟨s.1, String.ofList s.2⟩
  last : result.2 = ⟨state.after cs, byteCount whole, []⟩

theorem finds_nil (whole : List Char) (steps : Nat) (state : State) :
    Finds whole state [] (Cursor.run steps ⟨state, byteCount whole, encode []⟩) := by
  rw [Cursor.run_of_ahead_eq_nil steps _ rfl]
  exact ⟨rfl, rfl⟩

theorem map_span_rangeOver {whole pre a b : List Char} (h : whole = pre ++ (a ++ b)) (kind : Kind) :
    (rangeOver kind pre a).toList.map (Range.span (String.ofList whole)) =
      if a = [] then [] else [⟨kind, String.ofList a⟩] := by
  unfold rangeOver
  by_cases hne : a = []
  · rw [if_pos hne, if_pos hne]
    rfl
  · rw [if_neg hne, if_neg hne, h]
    simp only [Option.toList_some, List.map_cons, List.map_nil, Range.span, Text.slice_append]

/-- **One step more**: it is right if it completes the machine's first span. -/
theorem Finds.step {whole pre a b : List Char} {kind : Kind} {state next : State} {steps : Nat}
    (hw : whole = pre ++ (a ++ b)) (hne : a ++ b ≠ []) (hstep : StepsOver kind state next a b)
    (hspans : stretches state (a ++ b) = (if a = [] then [] else [(kind, a)]) ++ stretches next b)
    (hafter : state.after (a ++ b) = next.after b)
    (h : Finds whole next b (Cursor.run steps ⟨next, byteCount (pre ++ a), encode b⟩)) :
    Finds whole state (a ++ b) (Cursor.run (steps + 1) ⟨state, byteCount pre, encode (a ++ b)⟩) := by
  have hahead : (encode (a ++ b)).isEmpty = false := by simp [Text.encode_ne_nil hne]
  rw [Cursor.run, hahead, if_neg Bool.false_ne_true, hstep pre]
  refine ⟨?_, ?_⟩
  · rw [List.map_append, h.spans, map_span_rangeOver hw, hspans, List.map_append]
    by_cases ha : a = []
    · rw [if_pos ha, if_pos ha]
      rfl
    · rw [if_neg ha, if_neg ha]
      rfl
  · rw [hafter]
    exact h.last

/-- **The last step**: it goes over all that is ahead. -/
theorem finds_last {whole pre a : List Char} {kind : Kind} {state : State} (steps : Nat)
    (hw : whole = pre ++ a) (hne : a ≠ []) (hstep : StepsOver kind state state a [])
    (hspans : stretches state a = [(kind, a)]) (hafter : state.after a = state) :
    Finds whole state a (Cursor.run (steps + 1) ⟨state, byteCount pre, encode a⟩) := by
  subst hw
  have h := (finds_nil (pre ++ a) steps state).step (by simp) (by simpa using hne) hstep
    (by rw [List.append_nil, hspans, if_neg hne]; rfl) (by rw [List.append_nil, hafter]; rfl)
  rwa [List.append_nil] at h

/-- **A run with enough steps is right.** -/
theorem finds_run {whole : List Char} (steps : Nat) (state : State) (pre cs : List Char)
    (hw : whole = pre ++ cs) (h : need state cs ≤ steps) :
    Finds whole state cs (Cursor.run steps ⟨state, byteCount pre, encode cs⟩) := by
  induction steps generalizing state pre cs with
  | zero =>
    have : cs = [] := Classical.byContradiction fun hne => by
      have := Text.byteCount_pos hne
      cases state <;> simp only [need] at h <;> omega
    subst this hw
    simpa using finds_nil pre 0 state
  | succ steps ih =>
    by_cases hne : cs = []
    · subst hne hw
      simpa using finds_nil pre (steps + 1) state
    cases state with
    | inText =>
      by_cases hmem : '<' ∈ cs
      · obtain ⟨a, b, rfl, ha⟩ := List.eq_append_cons_of_mem hmem
        have hih := ih .inTag (pre ++ a) ('<' :: b) (by simp [hw]) (need_of_text h)
        refine hih.step hw hne (stepsOver_text_lt ha b) ?_ ?_
        · by_cases hnil : a = []
          · subst hnil
            rfl
          · rw [if_neg hnil]
            exact stretches_text_append ha hnil
        · rw [State.after_append, after_text ha, after_lt]
      · exact finds_last steps hw hne (stepsOver_text hmem) (stretches_text hmem hne)
          (after_text hmem)
    | inTag =>
      by_cases hmem : '>' ∈ cs
      · obtain ⟨a, b, rfl, ha⟩ := List.eq_append_cons_of_mem hmem
        have hcs : a ++ '>' :: b = (a ++ ['>']) ++ b := by simp
        have hnil : a ++ ['>'] ≠ [] := by simp
        have hih := ih .inText (pre ++ (a ++ ['>'])) b (by simp [hw]) (need_of_tag h)
        rw [hcs] at hw hne ⊢
        refine hih.step hw hne (stepsOver_tag_gt ha b) ?_ ?_
        · rw [if_neg hnil, ← hcs]
          exact stretches_tag_append ha
        · rw [State.after_append, State.after_append, after_tag ha]
          rfl
      · exact finds_last steps hw hne (stepsOver_tag hmem) (stretches_tag hmem hne) (after_tag hmem)

/-- **The scan over bytes is the machine's scan**: the same spans and the same state. -/
theorem classify_ofList (cs : List Char) (state : State) :
    classify (String.ofList cs) state =
      ((stretches state cs).map fun s => ⟨s.1, String.ofList s.2⟩, state.after cs) := by
  have h := finds_run (2 * byteCount cs) state [] cs rfl (by cases state <;> simp [need])
  simp only [classify, ranges, Text.bytes_ofList, Text.length_encode]
  rw [← h.spans]
  exact Prod.ext rfl (congrArg Cursor.state h.last)

end MarkupTrim.Scan
