import MarkupTrim.Scan.Lemmas
import Mathlib.Data.List.Basic
import Mathlib.Tactic.Common

/-! # Spans of a text

A scan of a text by its characters. `scan_induction` follows the two-state machine: in text it goes
on to the next `<`, in a tag by one character. The characters that are in tags (`tagChars`) determine
the tag spans: a tag span ends behind each `>` among them (`tagSpans_classify`), so two texts have
the same tag spans iff they have the same characters in tags (`tagSpans_classify_eq_iff`). -/

namespace MarkupTrim.Scan

/-! ### The machine on texts -/

/-- A span of characters as a span of text. -/
def toSpan (s : Kind × List Char) : Span := ⟨s.1, String.ofList s.2⟩

/-- **The spans of a text are the machine's**, and so is the state behind it. -/
theorem classify_eq (text : String) (state : State) :
    classify text state =
      ((stretches state text.toList).map fun s => ⟨s.1, String.ofList s.2⟩,
        state.after text.toList) := by
  conv_lhs => rw [← String.ofList_toList (s := text)]
  exact classify_ofList _ _

theorem next_space (state : State) : state.next ' ' = state := by
  cases state <;> rfl

theorem after_text_lt {a : List Char} (ha : '<' ∉ a) (b : List Char) :
    State.inText.after (a ++ '<' :: b) = State.inTag.after b := by
  rw [State.after_append, after_text ha]; rfl

/-- Behind a `<` without a `>` a tag is open, wherever the scan started. -/
theorem after_append_lt (state : State) (before : List Char) {inner : List Char}
    (h : '>' ∉ inner) : state.after (before ++ '<' :: inner) = .inTag := by
  rw [State.after_append, State.after_cons]
  have hnext : (state.after before).next '<' = .inTag := by cases state.after before <;> rfl
  rw [hnext, after_tag h]

theorem lt_mem_of_after {cs : List Char} (h : State.inText.after cs = .inTag) : '<' ∈ cs := by
  by_contra hmem
  rw [after_text hmem] at h
  cases h

/-- **Induction along a scan.** A text goes on to its end or to the next `<`, a tag by one
character, which closes the tag if it is `>`. -/
theorem scan_induction {motive : State → List Char → Prop}
    (text : ∀ a, '<' ∉ a → motive .inText a)
    (enter : ∀ a b, '<' ∉ a → motive .inTag b → motive .inText (a ++ '<' :: b))
    (rest : motive .inTag [])
    (tag : ∀ c cs, motive (State.inTag.next c) cs → motive .inTag (c :: cs)) :
    ∀ state cs, motive state cs := by
  intro state cs
  induction hn : cs.length using Nat.strongRecOn generalizing state cs with
  | ind n ih =>
    subst hn
    cases state with
    | inText =>
      by_cases hmem : '<' ∈ cs
      · obtain ⟨a, b, rfl, ha⟩ := List.eq_append_cons_of_mem hmem
        exact enter a b ha (ih b.length (by simp; omega) _ _ rfl)
      · exact text cs hmem
    | inTag =>
      rcases cs with _ | ⟨c, cs⟩
      · exact rest
      · exact tag c cs (ih cs.length (by simp) _ _ rfl)

/-! ### Labels -/

theorem labels_append (state : State) (as bs : List Char) :
    labels state (as ++ bs) = labels state as ++ labels (state.after as) bs := by
  induction as generalizing state with
  | nil => rfl
  | cons a as ih => simp [labels, ih]

theorem map_snd_labels (state : State) (cs : List Char) : (labels state cs).map (·.2) = cs := by
  induction cs generalizing state with
  | nil => rfl
  | cons c cs ih => rw [labels, List.map_cons, ih]

theorem labels_text {a : List Char} (ha : '<' ∉ a) :
    labels .inText a = a.map fun c => (.text, c) := by
  induction a with
  | nil => rfl
  | cons c a ih =>
    have hc : c ≠ '<' := fun h => ha (by simp [h])
    rw [labels, State.next_inText hc, ih fun h => ha (List.mem_cons_of_mem _ h)]
    simp [State.kindOf, hc]

/-- The characters of a scan that are in tags. -/
def tagChars (state : State) (cs : List Char) : List Char :=
  ((labels state cs).filter fun p => p.1 = .tag).map (·.2)

theorem tagChars_cons (state : State) (c : Char) (cs : List Char) :
    tagChars state (c :: cs) =
      (if state.kindOf c = .tag then [c] else []) ++ tagChars (state.next c) cs := by
  unfold tagChars
  by_cases h : state.kindOf c = .tag <;> simp [labels, h]

theorem tagChars_append (state : State) (as bs : List Char) :
    tagChars state (as ++ bs) = tagChars state as ++ tagChars (state.after as) bs := by
  simp [tagChars, labels_append]

theorem tagChars_inTag (c : Char) (cs : List Char) :
    tagChars .inTag (c :: cs) = c :: tagChars (State.inTag.next c) cs := tagChars_cons ..

theorem tagChars_text {a : List Char} (ha : '<' ∉ a) : tagChars .inText a = [] := by
  simp [tagChars, labels_text ha, List.filter_eq_nil_iff]

theorem tagChars_text_lt {a : List Char} (ha : '<' ∉ a) (b : List Char) :
    tagChars .inText (a ++ '<' :: b) = '<' :: tagChars .inTag b := by
  rw [tagChars_append, tagChars_text ha, after_text ha, tagChars_cons]; rfl

/-! ### Tag spans -/

/-- The tag spans among the spans of a text. -/
def tagSpans (spans : List Span) : List Span := spans.filter fun span => span.kind = .tag

/-- The characters cut behind each `>`. -/
def cutTags : List Char → List (List Char)
  | [] => []
  | c :: cs =>
    if c = '>' then [c] :: cutTags cs
    else
      match cutTags cs with
      | [] => [[c]]
      | t :: ts => (c :: t) :: ts

theorem flatten_cutTags (cs : List Char) : (cutTags cs).flatten = cs := by
  induction cs with
  | nil => rfl
  | cons c cs ih =>
    rw [cutTags]
    split_ifs with hc
    · rw [List.flatten_cons, ih]; rfl
    · split
      · next h => rw [h] at ih; rw [← ih]; rfl
      · next t ts h => rw [h] at ih; rw [← ih]; rfl

theorem stretches_inTag_cons (c : Char) (cs : List Char) :
    ∃ t rest, stretches .inTag (c :: cs) = (.tag, t) :: rest := by
  rw [stretches, show State.inTag.kindOf c = .tag from rfl]
  rcases stretches (State.inTag.next c) cs with _ | ⟨⟨k, t⟩, rest⟩
  · exact ⟨_, _, rfl⟩
  · rw [attach]
    split_ifs with h
    · exact ⟨_, _, by rw [h.1]⟩
    · exact ⟨_, _, rfl⟩

theorem filter_attach_text (c : Char) (spans : List (Kind × List Char)) :
    (attach .text false c spans).filter (fun s => s.1 = .tag) =
      spans.filter fun s => s.1 = .tag := by
  rcases spans with _ | ⟨⟨k, t⟩, rest⟩
  · rfl
  · rw [attach]
    split_ifs with h
    · rw [h.1]; rfl
    · rfl

theorem next_gt (state : State) : state.next '>' = .inText := by
  cases state <;> rfl

theorem next_of_kindOf {state : State} {c : Char} (hk : state.kindOf c = .tag) (hc : c ≠ '>') :
    state.next c = .inTag := by
  cases state with
  | inText =>
    by_contra hs
    have hlt : c ≠ '<' := by rintro rfl; exact hs rfl
    rw [State.kindOf_inText hlt] at hk
    cases hk
  | inTag => exact State.next_inTag hc

theorem kindOf_eq_text {state : State} {c : Char} (hk : state.kindOf c ≠ .tag) :
    state.kindOf c = .text := by
  cases h : state.kindOf c with
  | text => rfl
  | tag => exact absurd h hk

/-- **The tag spans are the characters in tags, cut behind each `>`.** -/
theorem filter_stretches (state : State) (cs : List Char) :
    (stretches state cs).filter (fun s => s.1 = .tag) =
      (cutTags (tagChars state cs)).map fun t => (.tag, t) := by
  induction cs generalizing state with
  | nil => rfl
  | cons c cs ih =>
    rw [stretches, tagChars_cons]
    by_cases hk : state.kindOf c = .tag
    · rw [if_pos hk, List.singleton_append, cutTags, hk]
      by_cases hc : c = '>'
      · -- The span ends here, so the spans that follow are left alone.
        have hs : state.next c = .inText := by rw [hc, next_gt]
        rw [if_pos hc, hs, List.map_cons, ← ih]
        rcases stretches .inText cs with _ | ⟨⟨k, t⟩, rest⟩ <;> simp [attach]
      · -- The span goes on with the first of the spans that follow.
        have hs : state.next c = .inTag := next_of_kindOf hk hc
        have ih := ih .inTag
        rw [if_neg hc, hs]
        rcases cs with _ | ⟨d, cs⟩
        · rfl
        · obtain ⟨t, rest, h⟩ := stretches_inTag_cons d cs
          rw [h] at ih ⊢
          rcases hcut : cutTags (tagChars .inTag (d :: cs)) with _ | ⟨u, us⟩ <;>
            simp_all [attach]
    · simp only [kindOf_eq_text hk, reduceCtorEq, false_and, decide_false, if_false, List.nil_append]
      rw [filter_attach_text, ih]

theorem tagSpans_classify (text : String) (state : State) :
    tagSpans (classify text state).1 =
      (cutTags (tagChars state text.toList)).map fun t => ⟨.tag, String.ofList t⟩ := by
  rw [classify_eq, tagSpans, List.filter_map]
  show ((stretches state text.toList).filter fun s => s.1 = .tag).map _ = _
  rw [filter_stretches, List.map_map]; rfl

/-- **Texts with the same characters in tags have the same tag spans**, and no others do. -/
theorem tagSpans_classify_eq_iff (text text' : String) (state : State) :
    tagSpans (classify text state).1 = tagSpans (classify text' state).1 ↔
      tagChars state text.toList = tagChars state text'.toList := by
  rw [tagSpans_classify, tagSpans_classify]
  constructor
  · intro h
    have h := congrArg (fun spans => spans.flatMap fun s : Span => s.text.toList) h
    simpa [List.flatMap_map, List.flatMap_id', ← List.flatten_eq_flatMap, flatten_cutTags] using h
  · intro h; rw [h]

end MarkupTrim.Scan
