import MarkupTrim.Proofs.Document.Seam
import Mathlib.Logic.Relation

/-! # Layout does not count

How the source of a text is laid out makes no difference to what minifying it gives. Whitespace may be
put in where a text between tags starts or ends, and layout characters anywhere outside of tags
(`Inserts`). None of this changes the condensed text (`condensed_inserts`). Conversely every text
becomes its condensed text by taking out such whitespace, piece by piece (`relaid_condensed`). So the
texts that are related by such edits are those with one condensed text, and all of them minify to one
text (`minifyText_relaid`). -/

namespace MarkupTrim

open Scan Spacing

/-- Spaces and layout characters only. -/
def Slack (cs : List Char) : Prop := ∀ c ∈ cs, c = ' ' ∨ isLayout c = true

instance : DecidablePred Slack := fun cs =>
  decidable_of_iff ((cs.all fun c => c == ' ' || isLayout c) = true) (by simp [Slack])

/-- Between two parts of a text, outside of tags, a text starts or ends. -/
inductive TextEdge (before ahead : List Char) : Prop where
  /-- Nothing is in front, or a tag ends there. -/
  | start : StartsText .inText before → TextEdge before ahead
  /-- Nothing follows, or a tag starts there. -/
  | stop : State.inText.after before = .inText → (ahead = [] ∨ ∃ rest, ahead = '<' :: rest) →
      TextEdge before ahead

/-- Whitespace that does not count is put into a text. -/
inductive Inserts : List Char → List Char → Prop where
  /-- Spaces and layout where a text starts or ends. -/
  | edge {before ahead run : List Char} : TextEdge before ahead → Slack run →
      Inserts (before ++ ahead) (before ++ (run ++ ahead))
  /-- Layout anywhere outside of tags. -/
  | layout {before ahead run : List Char} : State.inText.after before = .inText →
      (∀ c ∈ run, isLayout c = true) → Inserts (before ++ ahead) (before ++ (run ++ ahead))

/-- Two texts are laid out differently: one becomes the other by putting in and taking out whitespace
that does not count. -/
def Relaid : List Char → List Char → Prop := Relation.EqvGen Inserts

/-! ### Whitespace in condensed text -/

theorem lt_notMem_slack {run : List Char} (h : Slack run) : '<' ∉ run := by
  intro hm
  rcases h _ hm with h | h <;> exact absurd h (by decide)

theorem collapse_slack_append {run : List Char} (h : Slack run) (cs : List Char) :
    trimSpaces (dropLayout (run ++ cs)) = trimSpaces (dropLayout cs) := by
  have hnil : Slack [] := fun _ hc => by cases hc
  simpa using collapse_append_append h hnil cs

theorem collapse_append_slack {run : List Char} (h : Slack run) (cs : List Char) :
    trimSpaces (dropLayout (cs ++ run)) = trimSpaces (dropLayout cs) := by
  have hnil : Slack [] := fun _ hc => by cases hc
  simpa using collapse_append_append hnil h cs

/-- At the start of a text whitespace does not count. -/
theorem condensed_slack_append {run : List Char} (h : Slack run) (cs : List Char) :
    condensed .inText (run ++ cs) = condensed .inText cs := by
  have hrun {a : List Char} (ha : '<' ∉ a) : '<' ∉ run ++ a := by simp [lt_notMem_slack h, ha]
  by_cases hmem : '<' ∈ cs
  · obtain ⟨a, b, rfl, ha⟩ := List.eq_append_cons_of_mem hmem
    rw [← List.append_assoc, condensed_text_lt (hrun ha), collapse_slack_append h,
      condensed_text_lt ha]
  · rw [condensed_text (hrun hmem), collapse_slack_append h, condensed_text hmem]

/-- Outside of tags what follows is condensed with the text under way, and with nothing in front of
that. -/
theorem condensed_append_congr {state : State} {as bs cs : List Char}
    (has : state.after as = .inText)
    (h : ∀ a, '<' ∉ a → condensed .inText (a ++ bs) = condensed .inText (a ++ cs)) :
    condensed state (as ++ bs) = condensed state (as ++ cs) := by
  induction state, as using scan_induction with
  | text a ha => exact h a ha
  | enter a b ha ih =>
    rw [after_text_lt ha] at has
    rw [List.append_assoc, List.cons_append, condensed_text_lt ha, ih has, List.append_assoc,
      List.cons_append, condensed_text_lt ha]
  | rest => cases has
  | tag c cs' ih =>
    rw [List.cons_append, condensed_inTag, ih has, List.cons_append, condensed_inTag]

/-- At the end of a text whitespace does not count. -/
theorem condensed_append_slack {run : List Char} (h : Slack run) {state : State} {cs : List Char}
    (hcs : state.after cs = .inText) : condensed state (cs ++ run) = condensed state cs := by
  have hcongr : condensed state (cs ++ run) = condensed state (cs ++ []) := by
    refine condensed_append_congr hcs fun a ha => ?_
    have hrun : '<' ∉ a ++ run := by simp [lt_notMem_slack h, ha]
    rw [condensed_text hrun, collapse_append_slack h, List.append_nil, condensed_text ha]
  rwa [List.append_nil] at hcongr

/-- Outside of tags layout does not count. -/
theorem condensed_append_layout {run : List Char} (h : ∀ c ∈ run, isLayout c = true)
    {state : State} {as : List Char} (has : state.after as = .inText) (bs : List Char) :
    condensed state (as ++ (run ++ bs)) = condensed state (as ++ bs) := by
  have hlt := lt_notMem_slack fun c hc => Or.inr (h c hc)
  refine condensed_append_congr has fun a ha => ?_
  have hdrop (b : List Char) : dropLayout (a ++ (run ++ b)) = dropLayout (a ++ b) := by
    rw [dropLayout_append, dropLayout_append, dropLayout_eq_nil h, List.nil_append,
      dropLayout_append]
  have hparts {b : List Char} (hb : '<' ∉ b) : '<' ∉ a ++ (run ++ b) ∧ '<' ∉ a ++ b := by
    simp [ha, hlt, hb]
  by_cases hmem : '<' ∈ bs
  · obtain ⟨b, c, rfl, hb⟩ := List.eq_append_cons_of_mem hmem
    have hwith : a ++ (run ++ (b ++ '<' :: c)) = (a ++ (run ++ b)) ++ '<' :: c := by simp
    rw [hwith, condensed_text_lt (hparts hb).1, hdrop, ← condensed_text_lt (hparts hb).2,
      List.append_assoc]
  · rw [condensed_text (hparts hmem).1, hdrop, condensed_text (hparts hmem).2]

/-- **Whitespace that does not count leaves the condensed text as it is.** -/
theorem condensed_inserts {cs cs' : List Char} (h : Inserts cs cs') :
    condensed .inText cs = condensed .inText cs' := by
  rcases h with ⟨hstart | ⟨hstate, rfl | ⟨rest, rfl⟩⟩, hrun⟩ | ⟨hstate, hrun⟩
  · rw [condensed_append_of_startsText hstart, condensed_append_of_startsText hstart,
      condensed_slack_append hrun]
  · rw [List.append_nil, List.append_nil, condensed_append_slack hrun hstate]
  · rw [condensed_append_lt, ← List.append_assoc, condensed_append_lt,
      condensed_append_slack hrun hstate]
  · rw [condensed_append_layout hrun hstate]

theorem condensed_relaid {cs cs' : List Char} (h : Relaid cs cs') :
    condensed .inText cs = condensed .inText cs' := by
  induction h with
  | rel _ _ hinserts => exact condensed_inserts hinserts
  | refl _ => rfl
  | symm _ _ _ ih => exact ih.symm
  | trans _ _ _ _ _ ih ih' => exact ih.trans ih'

/-! ### Condensing takes out what does not count -/

theorem Relaid.trans {as bs cs : List Char} (h : Relaid as bs) (h' : Relaid bs cs) :
    Relaid as cs := Relation.EqvGen.trans _ _ _ h h'

/-- The layout of a text is taken out. -/
theorem relaid_dropLayout {before text : List Char} (hbefore : State.inText.after before = .inText)
    (htext : '<' ∉ text) (ahead : List Char) :
    Relaid (before ++ (dropLayout text ++ ahead)) (before ++ (text ++ ahead)) := by
  induction text generalizing before with
  | nil => exact .refl _
  | cons c cs ih =>
    have hc : c ≠ '<' := fun h => htext (by simp [h])
    have hcs : '<' ∉ cs := fun h => htext (List.mem_cons_of_mem _ h)
    rcases hlayout : isLayout c
    · have hnext : State.inText.after (before ++ [c]) = .inText := by
        rw [State.after_append, hbefore]
        exact State.next_inText hc
      have hrest := ih hnext hcs
      rw [dropLayout_cons hlayout]
      simpa using hrest
    · have hinsert : Inserts (before ++ (cs ++ ahead)) (before ++ ([c] ++ (cs ++ ahead))) :=
        .layout hbefore (by simpa using hlayout)
      rw [dropLayout_cons_of_layout hlayout]
      exact (ih hbefore hcs).trans (.rel _ _ hinsert)

/-- The spaces at the two ends of a text are taken out. -/
theorem relaid_trimSpaces {before text ahead : List Char} (hbefore : StartsText .inText before)
    (htext : '<' ∉ text) (hahead : ahead = [] ∨ ∃ rest, ahead = '<' :: rest) :
    Relaid (before ++ (trimSpaces text ++ ahead)) (before ++ (text ++ ahead)) := by
  obtain ⟨lead, tail, htrim, hlead, htail⟩ := exists_eq_trimSpaces text
  have hfront : Inserts (before ++ (trimSpaces text ++ ahead))
      (before ++ (lead ++ (trimSpaces text ++ ahead))) :=
    .edge (.start hbefore) fun c hc => Or.inl (hlead c hc)
  have hafter : State.inText.after (before ++ (lead ++ trimSpaces text)) = .inText := by
    have hlt : '<' ∉ lead ++ trimSpaces text := fun hmem => by
      rw [← List.append_assoc] at htrim
      exact htext (htrim ▸ List.mem_append_left tail hmem)
    rw [State.after_append, hbefore.after_eq, after_text hlt]
  have hback : Inserts (before ++ (lead ++ trimSpaces text) ++ ahead)
      (before ++ (lead ++ trimSpaces text) ++ (tail ++ ahead)) :=
    .edge (.stop hafter hahead) fun c hc => Or.inl (htail c hc)
  have hwhole : before ++ (lead ++ trimSpaces text) ++ (tail ++ ahead) =
      before ++ (text ++ ahead) := by
    conv_rhs => rw [htrim]
    simp only [List.append_assoc]
  rw [hwhole] at hback
  simp only [List.append_assoc] at hback
  exact .trans (.rel _ _ hfront) (.rel _ _ hback)

/-- A text between tags is collapsed. -/
theorem relaid_text {before text ahead : List Char} (hbefore : StartsText .inText before)
    (htext : '<' ∉ text) (hahead : ahead = [] ∨ ∃ rest, ahead = '<' :: rest) :
    Relaid (before ++ (trimSpaces (dropLayout text) ++ ahead)) (before ++ (text ++ ahead)) := by
  have hlt : '<' ∉ dropLayout text := fun hmem => htext (List.mem_of_mem_filter hmem)
  exact (relaid_trimSpaces hbefore hlt hahead).trans
    (relaid_dropLayout hbefore.after_eq htext ahead)

/-- **Condensing a text is taking out whitespace that does not count.** -/
theorem relaid_condensed {state : State} {before : List Char} (cs : List Char)
    (hbefore : State.inText.after before = state)
    (hstart : state = .inText → StartsText .inText before) :
    Relaid (before ++ condensed state cs) (before ++ cs) := by
  induction state, cs using scan_induction generalizing before with
  | text a ha =>
    have htext := relaid_text (hstart rfl) ha (Or.inl rfl)
    simp only [List.append_nil] at htext
    rw [condensed_text ha]
    exact htext
  | enter a b ha ih =>
    have htext := relaid_text (hstart rfl) ha (Or.inr ⟨b, rfl⟩)
    have hafter : State.inText.after (before ++ (trimSpaces (dropLayout a) ++ ['<'])) = .inTag := by
      rw [State.after_append, hbefore, after_text_lt (notMem_collapsed ha)]
      rfl
    have htag := ih hafter fun h => by cases h
    simp only [List.append_assoc, List.singleton_append] at htag
    rw [condensed_text_lt ha]
    exact htag.trans htext
  | rest => exact .refl _
  | tag c cs ih =>
    have hafter : State.inText.after (before ++ [c]) = State.inTag.next c := by
      rw [State.after_append, hbefore]
      rfl
    have hnext : State.inTag.next c = .inText → StartsText .inText (before ++ [c]) := by
      intro h
      have hc : c = '>' := by
        by_contra hne
        rw [State.next_inTag hne] at h
        cases h
      subst hc
      exact Or.inr ⟨before, rfl, hbefore⟩
    have hrest := ih hafter hnext
    simp only [List.append_assoc, List.singleton_append] at hrest
    rw [condensed_inTag]
    exact hrest

/-- Texts are laid out differently iff they have the same condensed text. -/
theorem relaid_iff {cs cs' : List Char} :
    Relaid cs cs' ↔ condensed .inText cs = condensed .inText cs' := by
  have hself (as : List Char) : Relaid ([] ++ condensed .inText as) ([] ++ as) :=
    relaid_condensed as rfl fun _ => Or.inl ⟨rfl, rfl⟩
  refine ⟨condensed_relaid, fun h => ?_⟩
  have hleft := hself cs
  rw [h] at hleft
  exact .trans (.symm _ _ hleft) (hself cs')

/-- **Layout does not count.** Two texts that are laid out differently minify to the same text. They
are the texts with the same condensed text. -/
theorem minifyText_relaid (text text' : String) :
    (Relaid text.toList text'.toList → (minifyText text).text = (minifyText text').text) ∧
      (Relaid text.toList text'.toList ↔
        (condense text .inText).1 = (condense text' .inText).1) := by
  constructor
  · intro h
    rw [← String.toList_inj, toList_text_minifyText, toList_text_minifyText, minified, minified,
      condensed_relaid h]
  · rw [← String.toList_inj, toList_condense, toList_condense]
    exact relaid_iff

/-- Whitespace in front of a tag, and a line break within a word. -/
theorem minifyText_relaid_words :
    Relaid "Hi<b>all</b>".toList "Hi\n <b>al\nl</b>".toList ∧
      (minifyText "Hi<b>all</b>").text = (minifyText "Hi\n <b>al\nl</b>").text := by
  have hspaces : Inserts ("Hi".toList ++ "<b>all</b>".toList)
      ("Hi".toList ++ ("\n ".toList ++ "<b>all</b>".toList)) :=
    .edge (.stop (by decide +kernel) (Or.inr ⟨_, rfl⟩)) (by decide +kernel)
  have hbreak : Inserts ("Hi\n <b>al".toList ++ "l</b>".toList)
      ("Hi\n <b>al".toList ++ ("\n".toList ++ "l</b>".toList)) :=
    .layout (by decide +kernel) (List.all_eq_true.mp (by decide +kernel))
  have hrelaid : Relaid "Hi<b>all</b>".toList "Hi\n <b>al\nl</b>".toList :=
    .trans (.rel _ _ hspaces) (.rel _ _ hbreak)
  exact ⟨hrelaid, (minifyText_relaid _ _).1 hrelaid⟩

end MarkupTrim
