import MarkupTrim.Proofs.Document.Fragment

/-! # Nothing is lost over a run

What a run of calls gives for its fragments, against the fragments themselves. Label every character
of all fragments in a row as tag or text. The *content* is what is left without spaces and without
the layout characters of texts. Condensing takes away only what is not content
(`filter_condensed`), filling gaps and the hint add only spaces; the state a document carries is the
one the labels go on from. So the outputs of every run are its content, but for spaces
(`filter_output`): tabs and line breaks of tags stay, those of texts go, all else comes out once and
in order. -/

namespace MarkupTrim

open Scan Spacing

/-- The labelled characters that are content: no space, and no layout of a text. -/
def isContent (p : Kind × Char) : Bool := p.2 ≠ ' ' ∧ ¬ (p.1 = .text ∧ isLayout p.2 = true)

/-- The content of a run of characters. -/
def content (state : State) (cs : List Char) : List Char :=
  ((labels state cs).filter isContent).map (·.2)

theorem content_append (state : State) (as bs : List Char) :
    content state (as ++ bs) = content state as ++ content (state.after as) bs := by
  simp [content, labels_append]

theorem filter_content (p : Char → Bool) (state : State) (cs : List Char) :
    (content state cs).filter p =
      ((labels state cs).filter fun q => p q.2 && isContent q).map (·.2) := by
  rw [content, List.filter_map, List.filter_filter]; rfl

/-- The layout of the content is that of the tags. -/
theorem filter_isLayout_content (state : State) (cs : List Char) :
    (content state cs).filter isLayout =
      ((labels state cs).filter fun p => p.1 = .tag ∧ isLayout p.2 = true).map (·.2) := by
  rw [filter_content]
  congr 1
  refine List.filter_congr fun p _ => ?_
  obtain ⟨k, c⟩ := p
  rcases hc : isLayout c
  · simp
  · have hspace : c ≠ ' ' := by rintro rfl; cases hc
    cases k <;> simp [isContent, hc, hspace]

/-- All but spaces and layout is content. -/
theorem filter_not_isLayout_content (state : State) (cs : List Char) :
    (content state cs).filter (fun c => ¬ isLayout c = true) =
      cs.filter fun c => c ≠ ' ' ∧ ¬ isLayout c = true := by
  conv_rhs => rw [← map_snd_labels state cs, List.filter_map]
  rw [filter_content]
  congr 1
  refine List.filter_congr fun p _ => ?_
  obtain ⟨k, c⟩ := p
  rcases hc : isLayout c <;> simp [isContent, hc]

theorem content_text {a : List Char} (ha : '<' ∉ a) :
    content .inText a = (dropLayout a).filter (· ≠ ' ') := by
  rw [content, labels_text ha, List.filter_map, List.map_map, dropLayout, List.filter_filter,
    show (Prod.snd ∘ fun c => ((Kind.text, c) : Kind × Char)) = id from rfl, List.map_id]
  refine List.filter_congr fun c _ => ?_
  simp [isContent]

theorem content_inTag (c : Char) (cs : List Char) :
    content .inTag (c :: cs) = [c].filter (· ≠ ' ') ++ content (State.inTag.next c) cs := by
  by_cases hc : c = ' ' <;> simp [content, labels, isContent, State.kindOf, hc]

/-- **Condensing keeps the content**, and nothing else but spaces. -/
theorem filter_condensed (state : State) (cs : List Char) :
    (condensed state cs).filter (· ≠ ' ') = content state cs := by
  induction state, cs using scan_induction with
  | text a ha => rw [condensed_text ha, filter_trimSpaces, content_text ha]
  | enter a b ha ih =>
    rw [condensed_text_lt ha, List.filter_append, filter_trimSpaces, content_append,
      content_text ha, after_text ha, List.filter_cons_of_pos (by decide), ih]
    rfl
  | rest => rfl
  | tag c cs ih =>
    rw [condensed_inTag, content_inTag, ← ih, ← List.filter_append, List.singleton_append]

namespace Document

/-! ### The two sides of a run -/

/-- The fragment that a call brings, if it is not an announcement. -/
def Call.fragment? : Call → Option String
  | .fragment text => some text
  | .announce _ => none

/-- All fragments of a run, joined. -/
def input (calls : List Call) : String := String.join (calls.filterMap Call.fragment?)

/-- All that a document gives for the fragments of a run, joined. -/
def output (document : Document) (calls : List Call) : String :=
  String.join ((calls.zip (document.run calls)).filterMap fun p =>
    p.1.fragment?.map fun _ => p.2.text)

variable {document : Document}

theorem input_fragment (text : String) (calls : List Call) :
    input (.fragment text :: calls) = text ++ input calls := by
  simp [input, Call.fragment?]

theorem input_announce (name : String) (calls : List Call) :
    input (.announce name :: calls) = input calls := rfl

theorem output_fragment (document : Document) (text : String) (calls : List Call) :
    output document (.fragment text :: calls) =
      (document.fragment text).text ++ output (document.fragment text).document calls := by
  simp [output, run, call, Call.fragment?]

theorem output_announce (document : Document) (name : String) (calls : List Call) :
    output document (.announce name :: calls) =
      output (document.announce name).document calls := rfl

/-! ### A step and a run -/

theorem filter_text_fragment (hm : document.mode = .minify) (text : String) :
    (document.fragment text).text.toList.filter (· ≠ ' ') = content document.state text.toList := by
  rw [toList_text_fragment hm, List.filter_append, minified, filter_fill, filter_condensed]
  split_ifs <;> rfl

/-- A run gives its content, from whatever state it starts. -/
theorem filter_output (hm : document.mode = .minify) (calls : List Call) :
    (output document calls).toList.filter (· ≠ ' ') =
      content document.state (input calls).toList := by
  induction calls generalizing document with
  | nil => rfl
  | cons call calls ih =>
    cases call with
    | fragment text =>
      have hm' : (document.fragment text).document.mode = .minify := by rw [mode_fragment, hm]
      rw [output_fragment, input_fragment, String.toList_append, String.toList_append,
        List.filter_append, content_append, filter_text_fragment hm, ih hm', state_fragment hm]
    | announce name =>
      rw [output_announce, input_announce, ih (by rw [mode_announce, hm]), state_announce]

/-- **Nothing is lost, doubled or moved over a run of a fresh document.** The outputs are the content
of all fragments, but for spaces. So they have the layout characters of tags and no others, and every
other character that is not a space once and in order. -/
theorem output_content (calls : List Call) :
    let out := (output {} calls).toList
    let labelled := labels .inText (input calls).toList
    out.filter (· ≠ ' ') =
        (labelled.filter fun p => p.2 ≠ ' ' ∧ ¬ (p.1 = .text ∧ isLayout p.2 = true)).map (·.2) ∧
      out.filter isLayout = (labelled.filter fun p => p.1 = .tag ∧ isLayout p.2 = true).map (·.2) ∧
      out.filter (fun c => c ≠ ' ' ∧ ¬ isLayout c = true) =
        (input calls).toList.filter fun c => c ≠ ' ' ∧ ¬ isLayout c = true := by
  intro out labelled
  have h : out.filter (· ≠ ' ') = content .inText (input calls).toList := filter_output rfl calls
  refine ⟨h, ?_, ?_⟩
  · rw [← filter_isLayout_content, ← h, List.filter_filter]
    refine List.filter_congr fun c _ => ?_
    rcases hc : isLayout c
    · simp
    · have hspace : c ≠ ' ' := by rintro rfl; cases hc
      simp [hspace]
  · rw [← filter_not_isLayout_content .inText (input calls).toList, ← h, List.filter_filter]
    refine List.filter_congr fun c _ => ?_
    simp [Bool.and_comm]

end Document

end MarkupTrim
