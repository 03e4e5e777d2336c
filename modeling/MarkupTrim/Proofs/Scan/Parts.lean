import MarkupTrim.Proofs.Scan.Sides

/-! # Scanning in parts

A text that comes in fragments, each scanned from the state behind the one in front of it, against
the text in one piece. The state at the end is that of the one scan. A cut divides at most one span:
the two spans that meet at it are parts of one if both are text, or if both are tags and a tag is
open at the cut (`Continues`). Joining these and no others, cut by cut, gives the spans of the one scan
(`reassemble_classifyEach`). -/

namespace MarkupTrim.Scan

/-- Fragments scanned one after another: the spans of each and the state behind it. -/
def classifyEach (state : State) : List String → List (List Span × State)
  | [] => []
  | fragment :: rest => classify fragment state :: classifyEach (classify fragment state).2 rest

/-- Two spans that meet at a cut, where the scan is in `state`, are parts of one. -/
def Continues (state : State) (last first : Span) : Prop :=
  (last.kind = .text ∧ first.kind = .text) ∨
    (last.kind = .tag ∧ first.kind = .tag ∧ state = .inTag)

instance (state : State) : DecidableRel (Continues state) := fun _ _ =>
  inferInstanceAs (Decidable (_ ∨ _))

/-- The spans on the two sides of a cut. The two that meet there are joined if they are parts of
one. -/
def joinAt (state : State) (left right : List Span) : List Span :=
  match left.getLast?, right with
  | some last, first :: rest =>
    if Continues state last first then left.dropLast ++ ⟨last.kind, last.text ++ first.text⟩ :: rest
    else left ++ right
  | _, _ => left ++ right

/-- The spans of fragments scanned one after another, joined cut by cut. -/
def reassemble : List (List Span × State) → List Span
  | [] => []
  | scan :: rest => joinAt scan.2 scan.1 (reassemble rest)

/-! ### Two parts -/

theorem joinAt_singleton (state : State) (last first : Span) (rest : List Span) :
    joinAt state [last] (first :: rest) =
      if Continues state last first then ⟨last.kind, last.text ++ first.text⟩ :: rest
      else last :: first :: rest := rfl

theorem joinAt_cons (state : State) (span : Span) {left : List Span} (h : left ≠ [])
    (right : List Span) : joinAt state (span :: left) right = span :: joinAt state left right := by
  obtain ⟨next, left, rfl⟩ := List.exists_cons_of_ne_nil h
  unfold joinAt
  rw [List.getLast?_cons_cons, List.dropLast_cons_cons]
  split
  · split_ifs <;> rfl
  · rfl

/-- A tag that is closed at the cut is joined to nothing. -/
theorem joinAt_closed (tag : String) (right : List Span) :
    joinAt .inText [⟨.tag, tag⟩] right = ⟨.tag, tag⟩ :: right := by
  rcases right with _ | ⟨first, rest⟩
  · rfl
  · rw [joinAt_singleton, if_neg (by simp [Continues])]

theorem map_stretches_ne_nil (state : State) {cs : List Char} (h : cs ≠ []) :
    (stretches state cs).map toSpan ≠ [] := by
  intro he
  have hjoin := flatMap_stretches state cs
  rw [List.map_eq_nil_iff.mp he] at hjoin
  exact h hjoin.symm

/-- A text that is cut goes on behind the cut up to the next tag. -/
theorem map_stretches_text_append {a : List Char} (ha : '<' ∉ a) (bs : List Char) :
    (stretches .inText (a ++ bs)).map toSpan =
      joinAt .inText ((stretches .inText a).map toSpan) ((stretches .inText bs).map toSpan) := by
  by_cases hne : a = []
  · subst hne; rfl
  have hparts {b : List Char} (hb : '<' ∉ b) : '<' ∉ a ++ b ∧ a ++ b ≠ [] := by simp [ha, hb, hne]
  rw [stretches_text ha hne]
  by_cases hmem : '<' ∈ bs
  · obtain ⟨b, c, rfl, hb⟩ := List.eq_append_cons_of_mem hmem
    rw [← List.append_assoc, stretches_text_append (hparts hb).1 (hparts hb).2]
    by_cases hb' : b = []
    · -- The back part starts with a tag.
      subst hb'
      obtain ⟨tag, rest, htag, -⟩ := stretches_lt c
      have hback : stretches .inText ([] ++ '<' :: c) = (.tag, '<' :: tag) :: rest := htag
      rw [hback, htag, List.append_nil]
      rfl
    · rw [stretches_text_append hb hb']
      simp [joinAt_singleton, Continues, toSpan]
  · by_cases hb : bs = []
    · rw [hb, List.append_nil, stretches_text ha hne]
      rfl
    · rw [stretches_text (hparts hmem).1 (hparts hmem).2, stretches_text hmem hb]
      simp [joinAt_singleton, Continues, toSpan]

/-- A tag that is cut goes on behind the cut up to its `>`. -/
theorem map_stretches_tag_append {a : List Char} (ha : '>' ∉ a) (bs : List Char) :
    (stretches .inTag (a ++ bs)).map toSpan =
      joinAt .inTag ((stretches .inTag a).map toSpan) ((stretches .inTag bs).map toSpan) := by
  by_cases hne : a = []
  · subst hne; rfl
  have hparts {b : List Char} (hb : '>' ∉ b) : '>' ∉ a ++ b ∧ a ++ b ≠ [] := by simp [ha, hb, hne]
  rw [stretches_tag ha hne]
  by_cases hmem : '>' ∈ bs
  · obtain ⟨b, c, rfl, hb⟩ := List.eq_append_cons_of_mem hmem
    rw [← List.append_assoc, stretches_tag_append (hparts hb).1, stretches_tag_append hb]
    simp [joinAt_singleton, Continues, toSpan]
  · by_cases hb : bs = []
    · rw [hb, List.append_nil, stretches_tag ha hne]
      rfl
    · rw [stretches_tag (hparts hmem).1 (hparts hmem).2, stretches_tag hmem hb]
      simp [joinAt_singleton, Continues, toSpan]

/-- The spans of a text are those of its two parts, joined at the cut. -/
theorem map_stretches_append (state : State) (as bs : List Char) :
    (stretches state (as ++ bs)).map toSpan =
      joinAt (state.after as) ((stretches state as).map toSpan)
        ((stretches (state.after as) bs).map toSpan) := by
  induction state, as using span_induction with
  | text a ha =>
    rw [after_text ha]
    exact map_stretches_text_append ha bs
  | textTag a b ha ih =>
    by_cases hne : a = []
    · subst hne; exact ih
    have htail := map_stretches_ne_nil .inTag (List.cons_ne_nil '<' b)
    rw [List.append_assoc, List.cons_append, stretches_text_append ha hne,
      stretches_text_append ha hne, List.map_cons, List.map_cons, joinAt_cons _ _ htail,
      State.after_append, after_text ha, after_lt, ← ih, List.cons_append]
  | tag a ha =>
    rw [after_tag ha]
    exact map_stretches_tag_append ha bs
  | tagText a b ha ih =>
    have hafter : State.inTag.after (a ++ '>' :: b) = State.inText.after b := by
      rw [State.after_append, after_tag ha]; rfl
    rw [List.append_assoc, List.cons_append, stretches_tag_append ha, stretches_tag_append ha,
      List.map_cons, List.map_cons, hafter]
    by_cases hb : b = []
    · -- The cut stands right behind the tag.
      subst hb
      exact (joinAt_closed _ _).symm
    · rw [joinAt_cons _ _ (map_stretches_ne_nil .inText hb), ih]

/-- **A text scanned in two parts** has the spans of both, joined at the cut, and the state behind
the back part. -/
theorem classify_append (state : State) (front back : String) :
    classify (front ++ back) state =
      (joinAt (classify front state).2 (classify front state).1
        (classify back (classify front state).2).1, (classify back (classify front state).2).2) := by
  simp only [classify_eq, String.toList_append, State.after_append]
  exact Prod.ext (map_stretches_append state front.toList back.toList) rfl

/-! ### Any number of parts -/

theorem getLastD_classifyEach (state : State) (fragments : List String) :
    ((classifyEach state fragments).map (·.2)).getLastD state =
      (classify (String.join fragments) state).2 := by
  induction fragments generalizing state with
  | nil => rfl
  | cons fragment rest ih =>
    rw [classifyEach, List.map_cons, List.getLastD_cons, ih, String.join_cons, classify_append]

theorem reassemble_eq (state : State) (fragments : List String) :
    reassemble (classifyEach state fragments) = (classify (String.join fragments) state).1 := by
  induction fragments generalizing state with
  | nil => rfl
  | cons fragment rest ih =>
    rw [classifyEach, reassemble, ih, String.join_cons, classify_append]

/-- **A text scanned in parts.** The state behind the last part is the state behind the text in one
piece. Joined cut by cut, where the two spans that meet are both text or both tags with a tag open,
the spans of the parts are those of the text in one piece. -/
theorem reassemble_classifyEach (state : State) (fragments : List String) :
    let scans := classifyEach state fragments
    let whole := classify (String.join fragments) state
    (scans.map (·.2)).getLastD state = whole.2 ∧ reassemble scans = whole.1 := by
  intro scans whole
  exact ⟨getLastD_classifyEach state fragments, reassemble_eq state fragments⟩

/-- A text and a tag that are cut, and two tags that meet at a cut. -/
example : reassemble (classifyEach .inText ["x", "y<a", "", " b>", "<i>"]) =
    [⟨.text, "xy"⟩, ⟨.tag, "<a b>"⟩, ⟨.tag, "<i>"⟩] := by
  decide +kernel

end MarkupTrim.Scan
