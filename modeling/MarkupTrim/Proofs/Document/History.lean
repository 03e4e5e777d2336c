import MarkupTrim.Proofs.Document.Content

/-! # What a document remembers

A document under way is what the calls so far have made of it, and most of that can be read off the
calls. Its state is that of one scan over all fragments in a row (`state_after`). A hint is pending
iff the last call, empty fragments aside, announced an inline element (`hintPending_after_iff`).
Empty fragments leave no trace: dropping any of them changes neither the document nor the reply to
any other call (`after_of_thinned`,
`transcript_of_thinned`). A document in pass-through mode gives
every fragment back and remembers only its counts (`run_passThrough`). -/

namespace MarkupTrim

open Scan

/-- The second list is the first with some of its spare elements dropped. -/
inductive Thinned {α : Type} (spare : α → Prop) : List α → List α → Prop
  /-- Nothing to drop. -/
  | nil : Thinned spare [] []
  /-- An element stays. -/
  | keep (a : α) {as bs : List α} : Thinned spare as bs → Thinned spare (a :: as) (a :: bs)
  /-- A spare element is dropped. -/
  | drop {a : α} {as bs : List α} : spare a → Thinned spare as bs → Thinned spare (a :: as) bs

/-- The last element that is not spare is one of a kind. -/
def LastIs {α : Type} (kind spare : α → Prop) (as : List α) : Prop :=
  ∃ before a after, as = before ++ a :: after ∧ kind a ∧ ∀ b ∈ after, spare b

theorem lastIs_concat_iff {α : Type} {kind spare : α → Prop} {as : List α} {last : α} :
    LastIs kind spare (as ++ [last]) ↔ spare last ∧ LastIs kind spare as ∨ kind last := by
  constructor
  · rintro ⟨before, a, after, he, ha, hafter⟩
    rcases List.eq_nil_or_concat after with rfl | ⟨init, b, rfl⟩
    · obtain ⟨-, hlast⟩ := List.append_inj' he rfl
      exact .inr ((List.cons.inj hlast).1 ▸ ha)
    · have hsplit : as ++ [last] = (before ++ a :: init) ++ [b] := by
        rw [he, List.concat_eq_append]
        simp
      obtain ⟨rfl, hlast⟩ := List.append_inj' hsplit rfl
      obtain rfl : last = b := (List.cons.inj hlast).1
      exact .inl ⟨hafter last (by simp), before, a, init, rfl, ha, fun c hc => hafter c (by simp [hc])⟩
  · rintro (⟨hspare, before, a, after, rfl, ha, hafter⟩ | hkind)
    · refine ⟨before, a, after ++ [last], by simp, ha, fun b hb => ?_⟩
      rcases List.mem_append.mp hb with hb | hb
      · exact hafter b hb
      · exact List.mem_singleton.mp hb ▸ hspare
    · exact ⟨as, last, [], rfl, hkind, fun b hb => by cases hb⟩

namespace Document

variable {document : Document}

/-! ### One call -/

theorem call_fragment (document : Document) (text : String) :
    document.call (.fragment text) = document.fragment text := rfl

theorem call_announce (document : Document) (name : String) :
    document.call (.announce name) = document.announce name := rfl

theorem mode_call (document : Document) (next : Call) :
    (document.call next).document.mode = document.mode := by
  cases next with
  | fragment text => exact mode_fragment document text
  | announce name => exact mode_announce document name

/-- What is pending behind a call: what was before if the call was an empty fragment, and the hint of
an inline element if it announced one. -/
theorem hintPending_call_iff (hm : document.mode = .minify) (next : Call) :
    (document.call next).document.hintPending = true ↔
      (next = .fragment "" ∧ document.hintPending = true) ∨
        ∃ name, next = .announce name ∧ isInline name = true := by
  cases next with
  | fragment text =>
    by_cases hempty : text = ""
    · subst hempty
      simp [call, fragment, hm]
    · simp [call, fragment, hm, hempty]
  | announce name => simp [call, hintPending_announce hm]

/-- An empty fragment changes nothing, in either mode. -/
theorem call_empty (document : Document) :
    document.call (.fragment "") = { text := "", document } := by
  rcases hm : document.mode <;> simp [call, fragment, hm]

theorem call_passThrough (hm : document.mode = .passThrough) (next : Call) :
    (document.call next).text = next.fragment?.getD "" ∧
      (document.call next).document.state = document.state ∧
      (document.call next).document.hintPending = document.hintPending := by
  cases next with
  | fragment text => by_cases hempty : text = "" <;> simp [call, fragment, hm, hempty, Call.fragment?]
  | announce name => simp [call, announce, hm, Call.fragment?]

/-! ### A run -/

theorem after_cons (document : Document) (next : Call) (calls : List Call) :
    document.after (next :: calls) = (document.call next).document.after calls := rfl

theorem after_concat (document : Document) (calls : List Call) (last : Call) :
    document.after (calls ++ [last]) = ((document.after calls).call last).document := by
  simp [after]

theorem mode_after (document : Document) (calls : List Call) :
    (document.after calls).mode = document.mode := by
  induction calls generalizing document with
  | nil => rfl
  | cons next calls ih => exact (ih _).trans (mode_call document next)

/-- The reply to a call of a run is that of the document behind the calls in front of it. -/
theorem getElem?_run (document : Document) (earlier : List Call) (next : Call)
    (later : List Call) :
    (document.run (earlier ++ next :: later))[earlier.length]? =
      some ((document.after earlier).call next) := by
  induction earlier generalizing document with
  | nil => rfl
  | cons first earlier ih =>
    rw [List.cons_append, run, List.length_cons, List.getElem?_cons_succ]
    exact ih _

/-- **The state is that of one scan** over all fragments in a row. -/
theorem state_after (hm : document.mode = .minify) (calls : List Call) :
    (document.after calls).state = document.state.after (input calls).toList := by
  induction calls generalizing document with
  | nil => rfl
  | cons next calls ih =>
    have ih := ih ((mode_call document next).trans hm)
    cases next with
    | fragment text =>
      rw [input_fragment, String.toList_append, State.after_append, ← state_fragment hm]
      exact ih
    | announce name =>
      rw [input_announce, ← state_announce document name]
      exact ih

/-- **The calls arm the hint**: the last of them, but for empty fragments, announces an inline
element. -/
def Armed (calls : List Call) : Prop :=
  ∃ before name after, calls = before ++ .announce name :: after ∧ isInline name = true ∧
    ∀ call ∈ after, call = .fragment ""

theorem armed_iff_lastIs {calls : List Call} : Armed calls ↔
    LastIs (fun call => ∃ name, call = .announce name ∧ isInline name = true) (· = .fragment "")
      calls := by
  constructor
  · rintro ⟨before, name, after, he, hname, hafter⟩
    exact ⟨before, _, after, he, ⟨name, rfl, hname⟩, hafter⟩
  · rintro ⟨before, _, after, he, ⟨name, rfl, hname⟩, hafter⟩
    exact ⟨before, name, after, he, hname, hafter⟩

theorem armed_concat_iff {calls : List Call} {last : Call} :
    Armed (calls ++ [last]) ↔
      (last = .fragment "" ∧ Armed calls) ∨
        ∃ name, last = .announce name ∧ isInline name = true := by
  rw [armed_iff_lastIs, lastIs_concat_iff, ← armed_iff_lastIs]

/-- **A hint is pending iff the calls arm it.** -/
theorem hintPending_after_iff (hm : document.mode = .minify) (hh : document.hintPending = false)
    (calls : List Call) : (document.after calls).hintPending = true ↔ Armed calls := by
  induction calls using List.reverseRecOn with
  | nil =>
    have hnone : ¬ Armed [] := by
      rintro ⟨before, name, after, he, -⟩
      simp at he
    simp [after, hh, hnone]
  | append_singleton calls last ih =>
    have hmode : (document.after calls).mode = .minify := (mode_after document calls).trans hm
    rw [after_concat, hintPending_call_iff hmode, armed_concat_iff, ih]

/-- Whether calls arm the hint can be told from a document behind them. -/
instance : DecidablePred Armed := fun calls =>
  have h : (({} : Document).after calls).hintPending = true ↔ Armed calls :=
    hintPending_after_iff rfl rfl calls
  decidable_of_iff _ h

/-- In pass-through mode a run gives every fragment back, and nothing for an announcement. Neither the
state nor the hint moves. -/
theorem run_passThrough (hm : document.mode = .passThrough) (calls : List Call) :
    (document.run calls).map (·.text) = (calls.map fun call => call.fragment?.getD "") ∧
      ∀ reply ∈ document.run calls,
        reply.document.state = document.state ∧
          reply.document.hintPending = document.hintPending := by
  induction calls generalizing document with
  | nil => exact ⟨rfl, fun reply hreply => by cases hreply⟩
  | cons next calls ih =>
    obtain ⟨htext, hstate, hhint⟩ := call_passThrough hm next
    obtain ⟨htexts, hreplies⟩ := ih ((mode_call document next).trans hm)
    refine ⟨by rw [run, List.map_cons, List.map_cons, htext, htexts], fun reply hreply => ?_⟩
    rcases List.mem_cons.mp hreply with rfl | hreply
    · exact ⟨hstate, hhint⟩
    · rw [← hstate, ← hhint]
      exact hreplies reply hreply

/-! ### Dropping empty fragments -/

/-- The calls of a run, each with the reply to it. -/
def transcript (document : Document) (calls : List Call) : List (Call × Reply) :=
  calls.zip (document.run calls)

theorem transcript_cons (document : Document) (next : Call) (calls : List Call) :
    transcript document (next :: calls) =
      (next, document.call next) :: transcript (document.call next).document calls := rfl

/-- **Empty fragments leave no trace in the document**, whichever of them are dropped. -/
theorem after_of_thinned {calls fewer : List Call} (h : Thinned (· = .fragment "") calls fewer) :
    document.after fewer = document.after calls := by
  induction h generalizing document with
  | nil => rfl
  | keep next _ ih => exact ih
  | drop hempty _ ih =>
    subst hempty
    refine ih.trans ?_
    rw [after_cons, call_empty]

/-- **Empty fragments leave no trace in the replies**: what is left of the run is answered as it was. -/
theorem transcript_of_thinned {calls fewer : List Call}
    (h : Thinned (· = .fragment "") calls fewer) :
    Thinned (·.1 = .fragment "") (transcript document calls) (transcript document fewer) := by
  induction h generalizing document with
  | nil => exact .nil
  | keep next _ ih => exact .keep _ ih
  | drop hempty _ ih =>
    subst hempty
    rw [transcript_cons, call_empty]
    exact .drop rfl ih

/-- **A document is a function of its history.** Behind any run of a fresh document the state is that
of one scan over all fragments, and a hint is pending iff the calls arm it. Dropping empty fragments
changes neither the document nor any other reply. In pass-through mode every fragment comes back as
it is, and neither state nor hint moves. -/
theorem document_of_history (calls : List Call) :
    let document := ({} : Document).after calls
    let plain : Document := { mode := .passThrough }
    (document.state = State.inText.after (input calls).toList ∧
        (document.hintPending = true ↔ Armed calls)) ∧
      (∀ fewer, Thinned (· = .fragment "") calls fewer →
        ({} : Document).after fewer = document ∧
          Thinned (·.1 = .fragment "") (transcript {} calls) (transcript {} fewer)) ∧
      (plain.run calls).map (·.text) = (calls.map fun call => call.fragment?.getD "") ∧
      ∀ reply ∈ plain.run calls,
        reply.document.state = .inText ∧ reply.document.hintPending = false := by
  intro document plain
  refine ⟨⟨state_after rfl calls, hintPending_after_iff rfl rfl calls⟩, fun fewer h => ?_,
    run_passThrough rfl calls⟩
  exact ⟨after_of_thinned h, transcript_of_thinned h⟩

/-- A hint that two empty fragments follow, with one of them dropped. -/
theorem document_of_history_dropped :
    let calls : List Call :=
      [.fragment "<p", .announce "div", .fragment "", .announce "a", .fragment "", .fragment ""]
    let fewer : List Call := [.fragment "<p", .announce "div", .fragment "", .announce "a", .fragment ""]
    Thinned (· = .fragment "") calls fewer ∧
      ({} : Document).after fewer = ({} : Document).after calls ∧
      Thinned (·.1 = .fragment "") (transcript {} calls) (transcript {} fewer) := by
  intro calls fewer
  have hthin : Thinned (· = .fragment "") calls fewer :=
    .keep _ (.keep _ (.keep _ (.keep _ (.drop rfl (.keep _ .nil)))))
  exact ⟨hthin, (document_of_history calls).2.1 fewer hthin⟩

end Document

end MarkupTrim
