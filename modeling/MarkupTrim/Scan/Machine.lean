import MarkupTrim.Scan.State

/-!
# Spans, one character at a time

The spans of a run of characters by their rule, without offsets or searching: every character is of
the kind that `State.kindOf` gives it, and joins the character behind it when both are of one span,
that is when they are of one kind and no tag ends between them.

A stretch without `<` is one text span, up to the `<` that follows it (`stretches_text_append`); in
a tag, a stretch without `>` and the `>` behind it are one tag span (`stretches_tag_append`).
-/

namespace MarkupTrim.Scan

/-- The characters of a scan that starts in `state`, each with its kind. -/
def labels : State → List Char → List (Kind × Char)
  | _, [] => []
  | state, c :: cs => (state.kindOf c, c) :: labels (state.next c) cs

/-- Puts a character in front of the spans that follow it: into the first of them if that is of the
same kind and no tag ends with the character, else as a span of its own. -/
def attach (kind : Kind) (endsTag : Bool) (c : Char) :
    List (Kind × List Char) → List (Kind × List Char)
  | [] => [(kind, [c])]
  | (k, cs) :: rest =>
    if k = kind ∧ endsTag = false then (k, c :: cs) :: rest else (kind, [c]) :: (k, cs) :: rest

/-- The spans of a run of characters, as the two-state machine finds them. -/
def stretches : State → List Char → List (Kind × List Char)
  | _, [] => []
  | state, c :: cs =>
    attach (state.kindOf c) (state.kindOf c = .tag ∧ state.next c = .inText) c
      (stretches (state.next c) cs)

theorem flatMap_attach (kind : Kind) (endsTag : Bool) (c : Char) (spans : List (Kind × List Char)) :
    (attach kind endsTag c spans).flatMap (·.2) = c :: spans.flatMap (·.2) := by
  rcases spans with _ | ⟨⟨k, cs⟩, rest⟩
  · rfl
  · rw [attach]
    split <;> simp

/-- The spans hold every character once and in order. -/
theorem flatMap_stretches (state : State) (cs : List Char) :
    (stretches state cs).flatMap (·.2) = cs := by
  induction cs generalizing state with
  | nil => rfl
  | cons c cs ih => rw [stretches, flatMap_attach, ih]

/-! ### Text -/

theorem after_text {a : List Char} (ha : '<' ∉ a) : State.inText.after a = .inText := by
  induction a with
  | nil => rfl
  | cons c a ih =>
    have hc : c ≠ '<' := fun h => ha (by simp [h])
    rw [State.after_cons, State.next_inText hc]
    exact ih fun h => ha (List.mem_cons_of_mem _ h)

theorem stretches_text {a : List Char} (ha : '<' ∉ a) (hne : a ≠ []) :
    stretches .inText a = [(.text, a)] := by
  induction a with
  | nil => exact absurd rfl hne
  | cons c a ih =>
    have hc : c ≠ '<' := fun h => ha (by simp [h])
    have hk := State.kindOf_inText hc
    have hs := State.next_inText hc
    rcases a with _ | ⟨d, a⟩
    · simp [stretches, attach, hk]
    · rw [stretches, hs, ih (fun h => ha (List.mem_cons_of_mem _ h)) (by simp), hk]
      simp [attach]

theorem after_lt (b : List Char) : State.inText.after ('<' :: b) = State.inTag.after ('<' :: b) :=
  rfl

theorem stretches_text_append {a b : List Char} (ha : '<' ∉ a) (hne : a ≠ []) :
    stretches .inText (a ++ '<' :: b) = (.text, a) :: stretches .inTag ('<' :: b) := by
  induction a with
  | nil => exact absurd rfl hne
  | cons c a ih =>
    have hc : c ≠ '<' := fun h => ha (by simp [h])
    have hk := State.kindOf_inText hc
    have hs := State.next_inText hc
    rcases a with _ | ⟨d, a⟩
    · simp only [List.cons_append, List.nil_append, stretches, hk, hs]
      rcases h : stretches .inTag b with _ | ⟨⟨k, cs⟩, r⟩
      · simp [State.kindOf, State.next, attach, h]
      · by_cases hk : k = .tag <;> simp [State.kindOf, State.next, attach, h, hk]
    · rw [List.cons_append, stretches, hs, ih (fun h => ha (List.mem_cons_of_mem _ h)) (by simp), hk]
      simp [attach]

/-! ### Tags -/

theorem after_tag {a : List Char} (ha : '>' ∉ a) : State.inTag.after a = .inTag := by
  induction a with
  | nil => rfl
  | cons c a ih =>
    have hc : c ≠ '>' := fun h => ha (by simp [h])
    rw [State.after_cons, State.next_inTag hc]
    exact ih fun h => ha (List.mem_cons_of_mem _ h)

theorem stretches_tag {a : List Char} (ha : '>' ∉ a) (hne : a ≠ []) :
    stretches .inTag a = [(.tag, a)] := by
  induction a with
  | nil => exact absurd rfl hne
  | cons c a ih =>
    have hc : c ≠ '>' := fun h => ha (by simp [h])
    have hs := State.next_inTag hc
    rcases a with _ | ⟨d, a⟩
    · simp [stretches, attach, State.kindOf]
    · rw [stretches, hs, ih (fun h => ha (List.mem_cons_of_mem _ h)) (by simp)]
      simp [attach, State.kindOf]

theorem stretches_tag_append {a b : List Char} (ha : '>' ∉ a) :
    stretches .inTag (a ++ '>' :: b) = (.tag, a ++ ['>']) :: stretches .inText b := by
  induction a with
  | nil =>
    rcases h : stretches .inText b with _ | ⟨⟨k, cs⟩, r⟩ <;>
      simp [stretches, State.kindOf, State.next, attach, h]
  | cons c a ih =>
    have hc : c ≠ '>' := fun h => ha (by simp [h])
    have hs := State.next_inTag hc
    rw [List.cons_append, stretches, hs, ih fun h => ha (List.mem_cons_of_mem _ h)]
    simp [attach, State.kindOf]

end MarkupTrim.Scan
