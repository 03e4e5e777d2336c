import MarkupTrim.Proofs.Document.History

/-! # The text of a host

A host emits what a document replies, and renders the inline elements that it announces outside of
tags itself, each right behind the reply to its announcement (`Emits`). Outside of tags the text
emitted so far never ends in a space, but between that reply and its element; and what is emitted
next starts with a space only for an announced element or for a hint, and then with one only. So each
such element has exactly one space in front of it, and no two spaces meet where two pieces of the
text do (`host_spacing`). -/

namespace MarkupTrim.Document

open Scan Spacing

/-- An element as a host renders it: something that has no space at either end. -/
structure Element where
  text : String
  ne_empty : text ≠ ""
  head?_ne : text.toList.head? ≠ some ' '
  getLast?_ne : text.toList.getLast? ≠ some ' '

/-- A piece of a host's text. -/
structure Piece where
  text : String
  /-- The state of the document when the piece is emitted. -/
  state : State
  /-- Whether the host rendered it. -/
  isElement : Bool
deriving DecidableEq

/-- The call announces an inline element outside of tags, so the host renders that next. -/
def Renders (document : Document) (next : Call) : Prop :=
  document.state = .inText ∧ ∃ name, next = .announce name ∧ isInline name = true

/-- **What a host emits** for the calls of a run: the text of each reply, and behind the reply to an
inline element announced outside of tags the element. -/
inductive Emits : Document → List Call → List Piece → Prop
  /-- The run is over. -/
  | done (document : Document) : Emits document [] []
  /-- A reply is emitted. -/
  | reply {document : Document} {next : Call} {calls : List Call} {pieces : List Piece} :
      ¬ Renders document next → Emits (document.call next).document calls pieces →
      Emits document (next :: calls) (⟨(document.call next).text, document.state, false⟩ :: pieces)
  /-- A reply is emitted, and the element behind it. -/
  | element {document : Document} {next : Call} {calls : List Call} {pieces : List Piece}
      (element : Element) : Renders document next →
      Emits (document.call next).document calls pieces →
      Emits document (next :: calls)
        (⟨(document.call next).text, document.state, false⟩ ::
          ⟨element.text, (document.call next).document.state, true⟩ :: pieces)

/-- A host can emit every run, whatever it renders. -/
theorem exists_emits (element : Element) (document : Document) (calls : List Call) :
    ∃ pieces, Emits document calls pieces := by
  induction calls generalizing document with
  | nil => exact ⟨[], .done document⟩
  | cons next calls ih =>
    obtain ⟨pieces, hpieces⟩ := ih (document.call next).document
    by_cases hrenders : Renders document next
    · exact ⟨_, .element element hrenders hpieces⟩
    · exact ⟨_, .reply hrenders hpieces⟩

/-- The characters of pieces in a row. -/
def joined (pieces : List Piece) : List Char := pieces.flatMap (·.text.toList)

/-- Two spaces side by side meet between two parts of a text, or end or start there. -/
inductive TwoSpaces (before ahead : List Char) : Prop where
  | behind : [' ', ' '] <:+ before → TwoSpaces before ahead
  | across : before.getLast? = some ' ' → ahead.head? = some ' ' → TwoSpaces before ahead
  | inFront : [' ', ' '] <+: ahead → TwoSpaces before ahead

/-- The text ends in exactly one space. -/
def EndsOneSpace (cs : List Char) : Prop := ∃ init, cs = init ++ [' '] ∧ init.getLast? ≠ some ' '

variable {document : Document}

/-! ### What a fragment starts and ends with -/

theorem getLast?_text_fragment (hm : document.mode = .minify) (text : String) :
    (document.fragment text).text.toList.getLast? =
      (condensed document.state text.toList).getLast? := by
  rw [toList_text_fragment hm, ← getLast?_minified]
  split_ifs with h
  · obtain ⟨c, rest, he, -⟩ := h.2.exists_eq
    rw [he, List.getLast?_append_of_ne_nil _ (by simp)]
  · rfl

/-- A fragment that ends outside of tags gives a text with neither space nor layout at its end. -/
theorem getLast?_text_fragment_ne (hm : document.mode = .minify) {text : String}
    (h : (document.fragment text).document.state = .inText) {c : Char}
    (hlast : (document.fragment text).text.toList.getLast? = some c) :
    c ≠ ' ' ∧ isLayout c = false := by
  rw [state_fragment hm] at h
  rw [getLast?_text_fragment hm] at hlast
  exact getLast?_condensed_ne h hlast

/-- A fragment that starts outside of tags gives a text with a space at its start only for a hint, and
then a word follows. -/
theorem hint_of_text_fragment_eq (hm : document.mode = .minify) (hs : document.state = .inText)
    {text : String} {rest : List Char}
    (h : (document.fragment text).text.toList = ' ' :: rest) :
    document.hintPending = true ∧ (document.fragment text).document.hintPending = false ∧
      StartsWord rest := by
  rw [toList_text_fragment hm, hs] at h
  split_ifs at h with hhint
  · obtain ⟨hpending, hword⟩ := hhint
    have hne : text ≠ "" := by
      rintro rfl
      cases hword
    have hspent : ¬ (document.call (.fragment text)).document.hintPending = true := by
      rw [hintPending_call_iff hm]
      simp [hne]
    exact ⟨hpending, Bool.eq_false_iff.mpr hspent, (List.cons.inj h).2 ▸ hword⟩
  · have hhead := head?_minified .inText text.toList
    rw [List.nil_append] at h
    rw [h] at hhead
    exact absurd hhead.symm (head?_condensed_ne _)

/-- A fragment that gives nothing does not move the state. -/
theorem state_fragment_of_text_eq_nil (hm : document.mode = .minify) {text : String}
    (h : (document.fragment text).text.toList = []) :
    (document.fragment text).document.state = document.state := by
  rw [toList_text_fragment hm] at h
  rw [state_fragment hm, ← after_minified, (List.append_eq_nil_iff.mp h).2]
  rfl

/-! ### The next character -/

theorem joined_cons (piece : Piece) (pieces : List Piece) :
    joined (piece :: pieces) = piece.text.toList ++ joined pieces := rfl

theorem Element.exists_eq (element : Element) :
    ∃ c rest, element.text.toList = c :: rest ∧ c ≠ ' ' := by
  rcases h : element.text.toList with _ | ⟨c, rest⟩
  · exact absurd (String.toList_inj.mp h) element.ne_empty
  · refine ⟨c, rest, rfl, ?_⟩
    rintro rfl
    exact element.head?_ne (by rw [h]; rfl)

/-- The reply to an announcement outside of tags is empty unless the host renders the element. -/
theorem text_announce_of_not_renders (hm : document.mode = .minify) (hs : document.state = .inText)
    {name : String} (h : ¬ Renders document (.announce name)) :
    (document.announce name).text = "" := by
  rw [text_announce hm, if_neg fun hinline => h ⟨hs, name, rfl, hinline⟩]

/-- The reply that an element follows is a space. -/
theorem toList_text_of_renders (hm : document.mode = .minify) {next : Call}
    (h : Renders document next) : (document.call next).text.toList = [' '] := by
  obtain ⟨-, name, rfl, hinline⟩ := h
  rw [call_announce, text_announce hm, if_pos hinline]
  rfl

/-- **Outside of tags at most one space comes next.** -/
theorem not_prefix_joined {calls : List Call} {pieces : List Piece} (h : Emits document calls pieces)
    (hm : document.mode = .minify) (hs : document.state = .inText) :
    ¬ [' ', ' '] <+: joined pieces := by
  induction h with
  | done document => simp [joined]
  | @reply document next calls pieces hnot _ ih =>
    have ih := ih ((mode_call document next).trans hm)
    rw [joined_cons]
    cases next with
    | fragment text =>
      rw [call_fragment]
      rcases htext : (document.fragment text).text.toList with _ | ⟨c, rest⟩
      · -- Nothing comes, and the document is still outside of tags.
        exact ih ((state_fragment_of_text_eq_nil hm htext).trans hs)
      · rintro ⟨ds, hds⟩
        obtain ⟨rfl, htail⟩ := List.cons.inj hds
        obtain ⟨d, rest, rfl, hd⟩ := (hint_of_text_fragment_eq hm hs htext).2.2.exists_eq
        obtain ⟨rfl, -⟩ := List.cons.inj htail
        exact absurd hd (by decide)
    | announce name =>
      rw [call_announce, text_announce_of_not_renders hm hs hnot]
      exact ih ((state_announce document name).trans hs)
  | @element document next calls pieces element hrenders _ _ =>
    obtain ⟨c, rest, he, hc⟩ := element.exists_eq
    rw [joined_cons, joined_cons, toList_text_of_renders hm hrenders, he]
    rintro ⟨ds, hds⟩
    exact hc (List.cons.inj (List.cons.inj hds).2).1.symm

/-! ### The last character -/

/-- Outside of tags the text still does not end in a space when a reply is added that no element
follows. -/
theorem getLast?_append_reply_ne (hm : document.mode = .minify) {next : Call}
    (hnot : ¬ Renders document next) {emitted : List Char}
    (hemitted : document.state = .inText → emitted.getLast? ≠ some ' ')
    (h : (document.call next).document.state = .inText) :
    (emitted ++ (document.call next).text.toList).getLast? ≠ some ' ' := by
  cases next with
  | fragment text =>
    rw [call_fragment] at h ⊢
    by_cases hnil : (document.fragment text).text.toList = []
    · rw [hnil, List.append_nil]
      exact hemitted ((state_fragment_of_text_eq_nil hm hnil).symm.trans h)
    · rw [List.getLast?_append_of_ne_nil _ hnil]
      intro hlast
      exact (getLast?_text_fragment_ne hm h hlast).1 rfl
  | announce name =>
    have hs : document.state = .inText := (state_announce document name).symm.trans h
    rw [call_announce, text_announce_of_not_renders hm hs hnot]
    simpa using hemitted hs

theorem not_twoSpaces {before ahead : List Char} (hbefore : before.getLast? ≠ some ' ')
    (hahead : ¬ [' ', ' '] <+: ahead) : ¬ TwoSpaces before ahead := by
  rintro (⟨init, rfl⟩ | ⟨hlast, -⟩ | hfront)
  · exact hbefore (by simp)
  · exact hbefore hlast
  · exact hahead hfront

theorem not_twoSpaces_element {before : List Char} (hbefore : before.getLast? ≠ some ' ')
    (element : Element) (rest : List Char) :
    ¬ TwoSpaces (before ++ [' ']) (element.text.toList ++ rest) := by
  obtain ⟨c, cs, he, hc⟩ := element.exists_eq
  rw [he]
  rintro (⟨init, hinit⟩ | ⟨-, hhead⟩ | ⟨ds, hds⟩)
  · have hsplit : (init ++ [' ']) ++ [' '] = before ++ [' '] := by simpa using hinit
    obtain ⟨rfl, -⟩ := List.append_inj' hsplit rfl
    exact hbefore (by simp)
  · exact hc (Option.some.inj hhead)
  · exact hc (List.cons.inj hds).1.symm

/-- **The spaces in a host's text**, behind a text `emitted` that does not end in a space outside of
tags: one in front of each element, and no two where pieces meet outside of tags. -/
theorem spaces_of_emits {calls : List Call} {pieces : List Piece}
    (h : Emits document calls pieces) (hm : document.mode = .minify) {emitted : List Char}
    (hemitted : document.state = .inText → emitted.getLast? ≠ some ' ') {front back : List Piece}
    {piece : Piece} (he : pieces = front ++ piece :: back) :
    (piece.isElement = true → EndsOneSpace (emitted ++ joined front)) ∧
      (piece.state = .inText → ¬ TwoSpaces (emitted ++ joined front) (joined (piece :: back))) := by
  -- The piece is the next to be emitted, or it is one of the rest, behind a longer text.
  induction h generalizing emitted front with
  | done document => simp at he
  | @reply document next calls pieces hnot hrest ih =>
    rcases front with _ | ⟨first, front⟩
    · obtain ⟨rfl, rfl⟩ := List.cons.inj he
      refine ⟨fun helement => absurd helement (by simp), fun hs => ?_⟩
      simp only [joined, List.flatMap_nil, List.append_nil]
      exact not_twoSpaces (hemitted hs) (not_prefix_joined (.reply hnot hrest) hm hs)
    · obtain ⟨rfl, htail⟩ := List.cons.inj he
      rw [joined_cons, ← List.append_assoc]
      exact ih ((mode_call document next).trans hm) (getLast?_append_reply_ne hm hnot hemitted) htail
  | @element document next calls pieces element hrenders hrest ih =>
    have hbefore := hemitted hrenders.1
    rcases front with _ | ⟨first, _ | ⟨second, front⟩⟩
    · obtain ⟨rfl, rfl⟩ := List.cons.inj he
      refine ⟨fun helement => absurd helement (by simp), fun hs => ?_⟩
      simp only [joined, List.flatMap_nil, List.append_nil]
      exact not_twoSpaces (hemitted hs) (not_prefix_joined (.element element hrenders hrest) hm hs)
    · obtain ⟨rfl, htail⟩ := List.cons.inj he
      obtain ⟨rfl, rfl⟩ := List.cons.inj htail
      rw [joined_cons, toList_text_of_renders hm hrenders]
      exact ⟨fun _ => ⟨emitted, rfl, hbefore⟩, fun _ => not_twoSpaces_element hbefore element _⟩
    · obtain ⟨rfl, htail⟩ := List.cons.inj he
      obtain ⟨rfl, hrest⟩ := List.cons.inj htail
      rw [joined_cons, joined_cons, ← List.append_assoc, ← List.append_assoc]
      refine ih ((mode_call document next).trans hm) (fun _ => ?_) hrest
      obtain ⟨c, cs, he, -⟩ := element.exists_eq
      rw [List.getLast?_append_of_ne_nil _ (by rw [he]; simp)]
      exact element.getLast?_ne

/-- **Spaces in the text of a host.** A fragment that ends outside of tags gives a text that is empty
or has neither a space nor layout at its end; one that starts outside of tags gives a text with a space
at its start only if it used up a hint, and then a word follows. So in all that a host emits for a run
each element it renders has exactly one space in front of it, and where two pieces meet outside of tags
no two spaces do. -/
theorem host_spacing (document : Document) (hm : document.mode = .minify) :
    (∀ text,
      let reply := document.fragment text
      (reply.document.state = .inText →
          ∀ c, reply.text.toList.getLast? = some c → c ≠ ' ' ∧ isLayout c = false) ∧
        (document.state = .inText → ∀ rest, reply.text.toList = ' ' :: rest →
          document.hintPending = true ∧ reply.document.hintPending = false ∧ StartsWord rest)) ∧
      ∀ calls pieces, Emits document calls pieces →
        ∀ front piece back, pieces = front ++ piece :: back →
          (piece.isElement = true → EndsOneSpace (joined front)) ∧
            (piece.state = .inText → ¬ TwoSpaces (joined front) (joined (piece :: back))) := by
  refine ⟨fun text => ⟨fun h c hlast => getLast?_text_fragment_ne hm h hlast,
    fun hs rest h => hint_of_text_fragment_eq hm hs h⟩, fun calls pieces h front piece back he => ?_⟩
  have hstart : document.state = .inText → ([] : List Char).getLast? ≠ some ' ' := fun _ => by simp
  exact spaces_of_emits h hm hstart he

/-- An anchor that the host renders between two words. -/
theorem host_spacing_anchor :
    let calls : List Call := [.fragment "See\n", .announce "a", .fragment "now"]
    let pieces : List Piece :=
      [⟨"See", .inText, false⟩, ⟨" ", .inText, false⟩, ⟨"<a>it</a>", .inText, true⟩,
        ⟨" now", .inText, false⟩]
    Emits {} calls pieces ∧ EndsOneSpace (joined (pieces.take 2)) ∧
      ¬ TwoSpaces (joined (pieces.take 3)) (joined (pieces.drop 3)) := by
  intro calls pieces
  let anchor : Element := ⟨"<a>it</a>", by decide, by decide, by decide⟩
  let first := ({} : Document).call (.fragment "See\n")
  let space := first.document.call (.announce "a")
  let last := space.document.call (.fragment "now")
  have hpieces : pieces = [⟨first.text, .inText, false⟩, ⟨space.text, first.document.state, false⟩,
      ⟨anchor.text, space.document.state, true⟩, ⟨last.text, space.document.state, false⟩] := by
    decide +kernel
  have hfragment (document : Document) (text : String) : ¬ Renders document (.fragment text) := by
    rintro ⟨-, name, he, -⟩
    cases he
  have hanchor : Renders first.document (.announce "a") :=
    ⟨by decide +kernel, "a", rfl, by decide +kernel⟩
  have hemits : Emits {} calls pieces := by
    rw [hpieces]
    exact .reply (hfragment _ _) (.element anchor hanchor (.reply (hfragment _ _) (.done _)))
  have hspaces := (host_spacing {} rfl).2 calls pieces hemits
  exact ⟨hemits, (hspaces (pieces.take 2) _ _ rfl).1 rfl, (hspaces (pieces.take 3) _ _ rfl).2 rfl⟩

end MarkupTrim.Document
