import MarkupTrim.Files.Selection
import Mathlib.Tactic.Common

/-! # Watched stores

A store can be watched: each file that is read or written is noted, with what came of it. A program
on a watched store does what it does on the store alone (`Follows`), so what is noted says which files
a run reads and writes. Selection does neither (`keeps_choose_watched`), and leaves a tree as it is
(`keeps_choose_tree`). -/

namespace MarkupTrim.Files

variable {σ τ α β : Type}

/-- A file that is read or written, and what came of it. -/
inductive Access where
  | read (path : String) (outcome : Except AccessError ByteArray)
  | write (path : String) (contents : ByteArray) (outcome : Except AccessError Unit)

/-- The state of a store, and the accesses to its files so far, in order. -/
structure Watched (σ : Type) where
  state : σ
  accesses : List Access := []

/-- An action on a store that is watched, and what is noted of it. -/
def watch (action : StateM σ α) (note : α → List Access) : StateM (Watched σ) α := fun watched =>
  ((action watched.state).1,
    { state := (action watched.state).2
      accesses := watched.accesses ++ note (action watched.state).1 })

instance [Store (StateM σ)] : Store (StateM (Watched σ)) where
  isDirectory path := watch (Store.isDirectory path) fun _ => []
  walk path := watch (Store.walk path) fun _ => []
  read path := watch (Store.read path) fun outcome => [.read path outcome]
  write path contents := watch (Store.write path contents) fun outcome =>
    [.write path contents outcome]

theorem bind_apply (action : StateM σ α) (next : α → StateM σ β) (s : σ) :
    (action >>= next) s = next (action s).1 (action s).2 := rfl

/-! ### What actions keep -/

/-- The action leaves as it is what `view` shows of the state. -/
def Keeps (view : σ → τ) (action : StateM σ α) : Prop := ∀ s, view (action s).2 = view s

theorem keeps_pure (view : σ → τ) (a : α) : Keeps view (pure a : StateM σ α) := fun _ => rfl

theorem Keeps.bind {view : σ → τ} {action : StateM σ α} {next : α → StateM σ β}
    (h : Keeps view action) (hnext : ∀ a, Keeps view (next a)) : Keeps view (action >>= next) :=
  fun s => (hnext (action s).1 (action s).2).trans (h s)

/-- Selection only looks at directories. -/
theorem keeps_choose [Store (StateM σ)] {view : σ → τ}
    (hd : ∀ path, Keeps view (Store.isDirectory path : StateM σ Bool))
    (hw : ∀ path, Keeps view (Store.walk path : StateM σ Walk)) (extensions inputs : List String) :
    Keeps view (choose extensions inputs : StateM σ Selection) := by
  have hfrom (input : String) : Keeps view (chooseFrom extensions input : StateM σ Selection) := by
    refine (hd input).bind fun isDirectory => ?_
    split_ifs
    · exact (hw input).bind fun _ => keeps_pure view _
    · exact keeps_pure view _
  induction inputs with
  | nil => exact keeps_pure view _
  | cons input rest ih =>
    refine (hfrom input).bind fun first => ?_
    split_ifs
    · exact keeps_pure view _
    · exact ih.bind fun _ => keeps_pure view _

theorem keeps_choose_tree (extensions inputs : List String) :
    Keeps id (choose extensions inputs : StateM Tree Selection) :=
  keeps_choose (fun _ _ => rfl) (fun _ _ => rfl) extensions inputs

theorem keeps_choose_watched [Store (StateM σ)] (extensions inputs : List String) :
    Keeps Watched.accesses (choose extensions inputs : StateM (Watched σ) Selection) := by
  have hwatch {α : Type} (action : StateM σ α) :
      Keeps Watched.accesses (watch action fun _ => []) := fun w => List.append_nil w.accesses
  exact keeps_choose (fun _ => hwatch _) (fun _ => hwatch _) extensions inputs

/-! ### What is watched is what is done -/

/-- The action on a watched store does what the other does on the store. -/
def Follows (watched : StateM (Watched σ) α) (alone : StateM σ α) : Prop :=
  ∀ w, alone w.state = ((watched w).1, (watched w).2.state)

theorem follows_pure (a : α) : Follows (pure a : StateM (Watched σ) α) (pure a) := fun _ => rfl

theorem follows_watch (action : StateM σ α) (note : α → List Access) :
    Follows (watch action note) action := fun _ => rfl

theorem Follows.bind {watched : StateM (Watched σ) α} {alone : StateM σ α}
    {next : α → StateM (Watched σ) β} {nextAlone : α → StateM σ β} (h : Follows watched alone)
    (hnext : ∀ a, Follows (next a) (nextAlone a)) :
    Follows (watched >>= next) (alone >>= nextAlone) := by
  intro w
  rw [bind_apply, h w]
  exact hnext (watched w).1 (watched w).2

section

variable [Store (StateM σ)]

theorem follows_readText (path : String) :
    Follows (readText path : StateM (Watched σ) _) (readText path) := by
  refine (follows_watch _ _).bind fun outcome => ?_
  cases outcome with
  | error cause => exact follows_pure _
  | ok contents =>
    dsimp only
    cases String.fromUTF8? contents with
    | none => exact follows_pure _
    | some text => exact follows_pure _

theorem follows_writeText (path text : String) :
    Follows (writeText path text : StateM (Watched σ) _) (writeText path text) := fun _ => rfl

theorem follows_choose (extensions inputs : List String) :
    Follows (choose extensions inputs : StateM (Watched σ) _) (choose extensions inputs) := by
  have hfrom (input : String) : Follows (chooseFrom extensions input : StateM (Watched σ) _)
      (chooseFrom extensions input) := by
    refine (follows_watch _ _).bind fun isDirectory => ?_
    split_ifs
    · exact (follows_watch _ _).bind fun _ => follows_pure _
    · exact follows_pure _
  induction inputs with
  | nil => exact follows_pure _
  | cons input rest ih =>
    refine (hfrom input).bind fun first => ?_
    split_ifs
    · exact follows_pure _
    · exact ih.bind fun _ => follows_pure _

end

end MarkupTrim.Files
