import MarkupTrim.Proofs.Document.Bytes
import Mathlib.Algebra.Ring.Nat

/-! # What the events tell

A document reports what happens to it, and the report leaves nothing out: its counts, its state and
whether a hint is pending can be read off the events alone (`Tells`). Each call keeps it so
(`Tells.call`), and a fresh document has nothing to tell, so it is so behind every run
(`Tells.run`). A hint is reported used up right in front of the fragment that used it, and by no
other event (`events_tell`). -/

namespace MarkupTrim

open Scan Spacing

/-! ### Reading events -/

/-- What an event tells of a fragment: its bytes, the bytes of the result, the state behind it. -/
structure Told where
  input : ℕ
  output : ℕ
  state : State

def Event.told? : Event → Option Told
  | fragmentMinified input output state => some ⟨input, output, state⟩
  | _ => none

/-- Whether the element that an event announces arms the hint. -/
def Event.armed? : Event → Option Bool
  | announced _ armed => some armed
  | _ => none

/-- What events tell of the fragments that were minified, in order. -/
def told (events : List Event) : List Told := events.filterMap Event.told?

/-- **Events leave the hint armed** if the last announcement behind the last fragment armed it. -/
def LeaveArmed (events : List Event) : Prop :=
  LastIs (fun event => event.armed? = some true) (fun event => event.armed? = none ∧ event.told? = none)
    events

/-- The last event is that a hint was used up. -/
def EndsConsumed (events : List Event) : Prop :=
  ∃ needsSpace, events.getLast? = some (.hintConsumed needsSpace)

variable {events : List Event}

theorem told_concat_some {event : Event} {fragment : Told} (h : event.told? = some fragment) :
    told (events ++ [event]) = told events ++ [fragment] := by
  rw [told, List.filterMap_append, List.filterMap_cons_some h]
  rfl

theorem told_concat_none {event : Event} (h : event.told? = none) :
    told (events ++ [event]) = told events := by
  rw [told, List.filterMap_append, List.filterMap_cons_none h]
  exact List.append_nil _

theorem endsConsumed_concat_iff {event : Event} :
    EndsConsumed (events ++ [event]) ↔ ∃ needsSpace, event = .hintConsumed needsSpace := by
  simp [EndsConsumed]

/-- A property of each event together with those in front of it. -/
def AtEach (p : List Event → Event → Prop) (events : List Event) : Prop :=
  ∀ front event rest, events = front ++ event :: rest → p front event

theorem AtEach.concat {p : List Event → Event → Prop} (h : AtEach p events) {event : Event}
    (hlast : p events event) : AtEach p (events ++ [event]) := by
  intro front found rest he
  rcases List.eq_nil_or_concat rest with rfl | ⟨init, last, rfl⟩
  · obtain ⟨rfl, hfound⟩ := List.append_inj' he rfl
    exact (List.cons.inj hfound).1 ▸ hlast
  · have hsplit : events ++ [event] = (front ++ found :: init) ++ [last] := by
      rw [he, List.concat_eq_append]
      simp
    obtain ⟨hevents, -⟩ := List.append_inj' hsplit rfl
    exact h front found init hevents

/-! ### What a document's events tell of it -/

/-- An event stands right behind a hint that was used up iff it is a fragment's and the events in front
of it leave the hint armed. -/
def Consumes (front : List Event) (event : Event) : Prop :=
  EndsConsumed front ↔ event.told?.isSome = true ∧ LeaveArmed front

/-- **The events tell what became of a document** in minify mode. -/
structure Tells (events : List Event) (document : Document) : Prop where
  mode : document.mode = .minify
  stats : document.stats =
    { fragments := (told events).length
      bytesIn := ((told events).map Told.input).sum
      bytesOut := ((told events).map Told.output).sum }
  state : document.state = ((told events).getLast?.map Told.state).getD .inText
  pending : document.hintPending = true ↔ LeaveArmed events
  consumes : AtEach Consumes events
  ended : ¬ EndsConsumed events

theorem tells_nil : Tells [] {} where
  mode := rfl
  stats := rfl
  state := rfl
  pending := iff_of_false Bool.false_ne_true fun ⟨before, event, after, he, _⟩ => by simp at he
  consumes := fun front event rest he => by simp at he
  ended := fun ⟨needsSpace, h⟩ => by cases h

/-- That a hint was used up is told to nobody until the fragment is. -/
theorem leaveArmed_concat_consumed {needsSpace : Bool} :
    LeaveArmed (events ++ [.hintConsumed needsSpace]) ↔ LeaveArmed events := by
  rw [LeaveArmed, lastIs_concat_iff, ← LeaveArmed]
  simp [Event.armed?, Event.told?]

theorem not_leaveArmed_concat_minified {input output : ℕ} {state : State} :
    ¬ LeaveArmed (events ++ [.fragmentMinified input output state]) := by
  rw [LeaveArmed, lastIs_concat_iff]
  simp [Event.armed?, Event.told?]

theorem leaveArmed_concat_announced {name : String} {armed : Bool} :
    LeaveArmed (events ++ [.announced name armed]) ↔ armed = true := by
  rw [LeaveArmed, lastIs_concat_iff]
  simp [Event.armed?]

namespace Document

variable {document : Document}

theorem events_announce (hm : document.mode = .minify) (name : String) :
    (document.announce name).events = [.announced name (isInline name)] := by
  simp only [announce, hm]

/-- What a fragment reports: that it used up a hint, if one was pending, and then itself. -/
theorem events_fragment (hm : document.mode = .minify) {text : String} (hne : text ≠ "") :
    let reply := document.fragment text
    ∃ needsSpace, reply.events =
      (if document.hintPending then [.hintConsumed needsSpace] else []) ++
        [.fragmentMinified text.utf8ByteSize reply.text.utf8ByteSize reply.document.state] := by
  refine ⟨document.hintPending && startsWithWord (minify text document.state).1, ?_⟩
  simp [fragment, hm, hne]

theorem hintPending_fragment_of_ne (hm : document.mode = .minify) {text : String} (hne : text ≠ "") :
    (document.fragment text).document.hintPending = false := by
  simp [fragment, hm, hne]

end Document

open Document

variable {document : Document}

/-- An announcement is told. -/
theorem Tells.announce (h : Tells events document) (name : String) :
    Tells (events ++ (document.announce name).events) (document.announce name).document := by
  rw [events_announce h.mode]
  have htold : told (events ++ [.announced name (isInline name)]) = told events :=
    told_concat_none rfl
  exact {
    mode := (mode_announce document name).trans h.mode
    stats := by rw [htold, stats_announce, h.stats]
    state := by rw [htold, state_announce, h.state]
    pending := by rw [hintPending_announce h.mode, leaveArmed_concat_announced]
    consumes := h.consumes.concat (iff_of_false h.ended (by simp [Event.told?]))
    ended := by simp [endsConsumed_concat_iff] }

/-- **The events in front of a fragment's** tell what was told before the call, and end with a hint
used up iff they leave one armed. -/
theorem Tells.exists_front (h : Tells events document) {text : String} (hne : text ≠ "") :
    let reply := document.fragment text
    ∃ front, events ++ reply.events = front ++
        [.fragmentMinified text.utf8ByteSize reply.text.utf8ByteSize reply.document.state] ∧
      told front = told events ∧ AtEach Consumes front ∧
      (EndsConsumed front ↔ LeaveArmed front) := by
  intro reply
  obtain ⟨needsSpace, hevents⟩ := events_fragment h.mode hne
  by_cases hp : document.hintPending = true
  · rw [if_pos hp] at hevents
    refine ⟨events ++ [.hintConsumed needsSpace], ?_, told_concat_none rfl,
      h.consumes.concat (iff_of_false h.ended (by simp [Event.told?])), ?_⟩
    · rw [hevents, List.append_assoc]
    · rw [endsConsumed_concat_iff, leaveArmed_concat_consumed, ← h.pending]
      exact iff_of_true ⟨needsSpace, rfl⟩ hp
  · rw [if_neg hp] at hevents
    refine ⟨events, ?_, rfl, h.consumes, iff_of_false h.ended (h.pending.not.mp hp)⟩
    rw [hevents, List.nil_append]

/-- A fragment is told, behind the hint it used up. -/
theorem Tells.fragment (h : Tells events document) {text : String} (hne : text ≠ "") :
    Tells (events ++ (document.fragment text).events) (document.fragment text).document := by
  obtain ⟨front, hfront, htold, hconsumes, hended⟩ := h.exists_front hne
  have hadded : told (front ++ [.fragmentMinified text.utf8ByteSize
      (document.fragment text).text.utf8ByteSize (document.fragment text).document.state]) =
      told events ++ [{
        input := text.utf8ByteSize
        output := (document.fragment text).text.utf8ByteSize
        state := (document.fragment text).document.state }] := by
    rw [told_concat_some rfl, htold]
  rw [hfront]
  exact {
    mode := (mode_fragment document text).trans h.mode
    stats := by
      rw [hadded, stats_fragment document hne, h.stats]
      simp [Stats.count]
    state := by simp [hadded]
    pending := by
      rw [hintPending_fragment_of_ne h.mode hne]
      exact iff_of_false Bool.false_ne_true not_leaveArmed_concat_minified
    consumes := hconsumes.concat (hended.trans (by simp [Event.told?]))
    ended := by simp [endsConsumed_concat_iff] }

/-- **A call keeps the events telling.** -/
theorem Tells.call (h : Tells events document) (next : Call) :
    Tells (events ++ (document.call next).events) (document.call next).document := by
  cases next with
  | announce name => exact h.announce name
  | fragment text =>
    by_cases hempty : text = ""
    · rw [hempty, call_empty, List.append_nil]
      exact h
    · exact h.fragment hempty

/-- **So does a run.** -/
theorem Tells.run (h : Tells events document) (calls : List Call) :
    Tells (events ++ (document.run calls).flatMap Reply.events) (document.after calls) := by
  induction calls generalizing events document with
  | nil =>
    rw [Document.run, List.flatMap_nil, List.append_nil]
    exact h
  | cons next calls ih =>
    rw [Document.run, List.flatMap_cons, ← List.append_assoc]
    exact ih (h.call next)

/-! ### Replies -/

/-- A reply of a run is that of a document in the run's mode to one call. -/
theorem exists_call_of_mem_run {calls : List Call} {reply : Reply} (h : reply ∈ document.run calls) :
    ∃ (before : Document) (next : Call), before.mode = document.mode ∧ reply = before.call next := by
  induction calls generalizing document with
  | nil => cases h
  | cons next calls ih =>
    rcases List.mem_cons.mp h with rfl | h
    · exact ⟨document, next, rfl, rfl⟩
    · obtain ⟨before, call, hmode, hreply⟩ := ih h
      exact ⟨before, call, hmode.trans (mode_call document next), hreply⟩

/-- **A space that is reported** is there, in front of a letter or digit. -/
theorem exists_word_of_hintConsumed (hm : document.mode = .minify) {next : Call}
    (h : .hintConsumed true ∈ (document.call next).events) :
    ∃ c rest, (document.call next).text.toList = ' ' :: c :: rest ∧ c.isAlphanum = true := by
  cases next with
  | announce name =>
    rw [call_announce, events_announce hm] at h
    simp at h
  | fragment text =>
    rw [call_fragment] at h ⊢
    obtain ⟨c, rest, hword, hc⟩ :=
      ((hintConsumed_mem_events_fragment_iff hm text).mp h).2.exists_eq
    exact ⟨c, rest, by rw [toList_text_fragment_eq hm, spaceIf_pos h, hword]; rfl, hc⟩

theorem events_call_passThrough (hm : document.mode = .passThrough) (next : Call) :
    (document.call next).events = [] := by
  cases next <;> simp [Document.call, Document.fragment, Document.announce, hm]

/-- **The events tell the whole story of a document.** For every run of a fresh one: as many fragments
are told as were counted, their bytes in and out add up to the counts, and the last one's state is
the document's, which is in text as long as none is told. Right in front of a fragment a hint is told
to be used up iff the last announcement since the fragment before it armed the hint, and it is told
nowhere else. A text that is told to need its space starts with one and a letter or digit. The hint is
pending iff the last announcement since the last fragment armed it. A document in pass-through mode
tells nothing. -/
theorem events_tell (calls : List Call) :
    let document := ({} : Document).after calls
    let replies := ({} : Document).run calls
    let events := replies.flatMap Reply.events
    (document.stats.fragments = (told events).length ∧
      document.stats.bytesIn = ((told events).map Told.input).sum ∧
      document.stats.bytesOut = ((told events).map Told.output).sum ∧
      document.state = ((told events).getLast?.map Told.state).getD .inText) ∧
    (∀ front input output state rest,
      events = front ++ .fragmentMinified input output state :: rest →
        ((∃ needsSpace, front.getLast? = some (.hintConsumed needsSpace)) ↔ LeaveArmed front)) ∧
    (∀ front needsSpace rest, events = front ++ .hintConsumed needsSpace :: rest →
      ∃ input output state more, rest = .fragmentMinified input output state :: more) ∧
    (∀ reply ∈ replies, .hintConsumed true ∈ reply.events →
      ∃ c rest, reply.text.toList = ' ' :: c :: rest ∧ c.isAlphanum = true) ∧
    (document.hintPending = true ↔ LeaveArmed events) ∧
    (({ mode := .passThrough } : Document).run calls).flatMap Reply.events = [] := by
  intro document replies events
  have h : Tells events document := tells_nil.run calls
  refine ⟨?_, fun front input output state rest he => ?_, fun front needsSpace rest he => ?_,
    fun reply hreply hconsumed => ?_, h.pending, ?_⟩
  · rw [h.stats]
    exact ⟨rfl, rfl, rfl, h.state⟩
  · exact (h.consumes front _ rest he).trans (and_iff_right rfl)
  · rcases rest with _ | ⟨event, more⟩
    · exact absurd (he ▸ endsConsumed_concat_iff.mpr ⟨needsSpace, rfl⟩) h.ended
    · have hafter : events = (front ++ [.hintConsumed needsSpace]) ++ event :: more := by simp [he]
      have htold := ((h.consumes _ event more hafter).mp
        (endsConsumed_concat_iff.mpr ⟨needsSpace, rfl⟩)).1
      cases event with
      | fragmentMinified input output state => exact ⟨input, output, state, more, rfl⟩
      | _ => cases htold
  · obtain ⟨before, next, hmode, rfl⟩ := exists_call_of_mem_run hreply
    exact exists_word_of_hintConsumed hmode hconsumed
  · refine List.flatMap_eq_nil_iff.mpr fun reply hreply => ?_
    obtain ⟨before, next, hmode, rfl⟩ := exists_call_of_mem_run hreply
    exact events_call_passThrough hmode next

/-- A hint that an empty fragment leaves and the next one uses up, and an element that takes back none. -/
theorem events_tell_hint :
    let calls : List Call := [.announce "a", .fragment "", .fragment "b", .announce "div"]
    let replies := ({} : Document).run calls
    let front : List Event := [.announced "a" true, .hintConsumed true]
    replies.flatMap Reply.events =
        front ++ .fragmentMinified 1 2 .inText :: [.announced "div" false] ∧
      LeaveArmed front ∧ ¬ LeaveArmed (replies.flatMap Reply.events) ∧
      ∃ reply ∈ replies, .hintConsumed true ∈ reply.events ∧
        ∃ c rest, reply.text.toList = ' ' :: c :: rest ∧ c.isAlphanum = true := by
  intro calls replies front
  have hevents : replies.flatMap Reply.events =
      front ++ .fragmentMinified 1 2 .inText :: [.announced "div" false] := by decide +kernel
  have hlast : front.getLast? = some (.hintConsumed true) := rfl
  have hnone : (({} : Document).after calls).hintPending ≠ true := by decide +kernel
  have hreply : ∃ reply ∈ replies, .hintConsumed true ∈ reply.events := by decide +kernel
  obtain ⟨reply, hmem, hconsumed⟩ := hreply
  obtain ⟨-, hfront, -, hword, hpending, -⟩ := events_tell calls
  exact ⟨hevents, (hfront front _ _ _ _ hevents).mp ⟨true, hlast⟩, hpending.not.mp hnone,
    reply, hmem, hconsumed, hword reply hmem hconsumed⟩

end MarkupTrim
