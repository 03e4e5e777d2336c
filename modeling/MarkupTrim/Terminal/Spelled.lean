/-!
# Control characters spelled out

A log is read on a terminal, and a terminal obeys some of the characters that a message may quote.
These are spelled out, as a backslash and the code point in hexadecimal, so that a quoted path
cannot drive the terminal. What is spelled out holds none of them (`isObeyed_of_mem_spellOut`), and a
text without them stays as it is (`spellOut_eq_self`).
-/

namespace MarkupTrim.Terminal

/-- The characters of ASCII that are spelled out: bell, backspace, form feed, escape and delete. -/
def commands : List Char := ['\x07', '\x08', '\x0c', '\x1b', '\x7f']

/-- Whether a character is a control character behind ASCII, U+0080 to U+009F. -/
def isHighControl (c : Char) : Bool := 0x80 ≤ c.toNat && c.toNat ≤ 0x9f

/-- Whether a character is spelled out. Other control characters, such as the tab, are not. -/
def isObeyed (c : Char) : Bool := commands.contains c || isHighControl c

/-- The two hexadecimal digits of a number below 256. -/
def hexDigits (n : Nat) : List Char := [Nat.digitChar (n / 16), Nat.digitChar (n % 16)]

/-- What is written for a character. -/
def spelling (c : Char) : List Char :=
  if commands.contains c then '\\' :: 'x' :: hexDigits c.toNat
  else if isHighControl c then '\\' :: 'u' :: '\x7b' :: hexDigits c.toNat ++ ['\x7d']
  else [c]

/-- The text with control characters spelled out. -/
def spellOut (text : String) : String := String.ofList (text.toList.flatMap spelling)

theorem isObeyed_digitChar : ∀ d < 16, isObeyed (Nat.digitChar d) = false := by
  decide

theorem isObeyed_of_mem_hexDigits {n : Nat} (hn : n < 256) {c : Char} (h : c ∈ hexDigits n) :
    isObeyed c = false := by
  rcases List.mem_cons.mp h with rfl | h
  · exact isObeyed_digitChar _ (by omega)
  · rw [List.mem_singleton.mp h]
    exact isObeyed_digitChar _ (by omega)

theorem toNat_lt_of_mem_commands {c : Char} (h : c ∈ commands) : c.toNat < 256 := by
  have key : commands.all (fun c => decide (c.toNat < 256)) = true := by decide
  exact of_decide_eq_true (List.all_eq_true.mp key c h)

theorem spelling_eq_singleton {c : Char} (h : isObeyed c = false) : spelling c = [c] := by
  obtain ⟨h1, h2⟩ := (Bool.or_eq_false_iff).mp h
  rw [spelling, if_neg (by rw [h1]; exact Bool.false_ne_true),
    if_neg (by rw [h2]; exact Bool.false_ne_true)]

theorem isObeyed_of_mem_spelling {c d : Char} (h : d ∈ spelling c) : isObeyed d = false := by
  rw [spelling] at h
  split at h
  · next hc =>
    rcases List.mem_cons.mp h with rfl | h
    · decide
    rcases List.mem_cons.mp h with rfl | h
    · decide
    exact isObeyed_of_mem_hexDigits (toNat_lt_of_mem_commands (List.contains_iff_mem.mp hc)) h
  · next hc =>
    split at h
    · next hw =>
      have hlt : c.toNat < 256 := by
        have := of_decide_eq_true ((Bool.and_eq_true _ _).mp hw).2
        omega
      rcases List.mem_append.mp h with h | h
      · rcases List.mem_cons.mp h with rfl | h
        · decide
        rcases List.mem_cons.mp h with rfl | h
        · decide
        rcases List.mem_cons.mp h with rfl | h
        · decide
        exact isObeyed_of_mem_hexDigits hlt h
      · rw [List.mem_singleton.mp h]
        decide
    · next hw =>
      rw [List.mem_singleton.mp h]
      exact (Bool.or_eq_false_iff).mpr ⟨Bool.eq_false_iff.mpr hc, Bool.eq_false_iff.mpr hw⟩

/-- **Nothing a terminal obeys** is left when control characters are spelled out. -/
theorem isObeyed_of_mem_spellOut {text : String} {c : Char} (h : c ∈ (spellOut text).toList) :
    isObeyed c = false := by
  rw [spellOut, String.toList_ofList] at h
  obtain ⟨_, -, h⟩ := List.mem_flatMap.mp h
  exact isObeyed_of_mem_spelling h

/-- A text with nothing to spell out stays as it is. -/
theorem spellOut_eq_self {text : String} (h : ∀ c ∈ text.toList, isObeyed c = false) :
    spellOut text = text := by
  have key : ∀ cs : List Char, (∀ c ∈ cs, isObeyed c = false) → cs.flatMap spelling = cs := by
    intro cs hcs
    induction cs with
    | nil => rfl
    | cons c cs ih =>
      rw [List.flatMap_cons, spelling_eq_singleton (hcs c List.mem_cons_self),
        ih fun d hd => hcs d (List.mem_cons_of_mem _ hd)]
      rfl
  rw [spellOut, key _ h, String.ofList_toList]

end MarkupTrim.Terminal
