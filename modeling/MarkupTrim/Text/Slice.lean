/-!
# Bytes and slices

A text seen as its UTF-8 bytes, and the stretch of it between two byte offsets. Offsets that come
from cutting the text between characters slice back the part they were cut around (`slice_append`).
A character of ASCII is one byte, which no other character's bytes contain
(`toUInt8_notMem_utf8EncodeChar`), so searching the bytes finds the place where the character stands
first (`findIdx?_encode`).
-/

namespace MarkupTrim.Text

/-- The UTF-8 bytes of a text. -/
def bytes (text : String) : List UInt8 := text.toByteArray.data.toList

/-- The stretch of a text from byte offset `start` up to `stop`, both between characters. -/
def slice (text : String) (start stop : Nat) : String :=
  String.Pos.Raw.extract text ⟨start⟩ ⟨stop⟩

/-- The number of UTF-8 bytes of a run of characters. -/
def byteCount : List Char → Nat
  | [] => 0
  | c :: cs => c.utf8Size + byteCount cs

/-- The UTF-8 bytes of a run of characters. -/
def encode (cs : List Char) : List UInt8 := cs.flatMap String.utf8EncodeChar

@[simp] theorem byteCount_nil : byteCount [] = 0 := rfl

@[simp] theorem byteCount_cons (c : Char) (cs : List Char) :
    byteCount (c :: cs) = c.utf8Size + byteCount cs := rfl

@[simp] theorem byteCount_append (as bs : List Char) :
    byteCount (as ++ bs) = byteCount as + byteCount bs := by
  induction as with
  | nil => simp
  | cons a as ih => simp [ih, Nat.add_assoc]

theorem byteCount_pos {cs : List Char} (h : cs ≠ []) : 0 < byteCount cs := by
  rcases cs with _ | ⟨c, cs⟩
  · exact absurd rfl h
  · have := c.utf8Size_pos
    simp only [byteCount_cons]
    omega

theorem byteCount_le_of_sublist {as bs : List Char} (h : as.Sublist bs) :
    byteCount as ≤ byteCount bs := by
  induction h with
  | slnil => exact Nat.le_refl 0
  | cons c _ ih =>
    rw [byteCount_cons]
    omega
  | cons_cons c _ ih =>
    rw [byteCount_cons, byteCount_cons]
    omega

/-- **A text that loses characters loses bytes**: if no bytes are gone, it is the whole text. -/
theorem eq_of_sublist_of_byteCount_eq {as bs : List Char} (h : as.Sublist bs)
    (hbytes : byteCount as = byteCount bs) : as = bs := by
  induction h with
  | slnil => rfl
  | cons c hsub _ =>
    have := byteCount_le_of_sublist hsub
    have := c.utf8Size_pos
    rw [byteCount_cons] at hbytes
    omega
  | cons_cons c _ ih =>
    rw [byteCount_cons, byteCount_cons] at hbytes
    rw [ih (by omega)]

theorem length_encode (cs : List Char) : (encode cs).length = byteCount cs := by
  induction cs with
  | nil => rfl
  | cons c cs ih =>
    rw [byteCount_cons, ← ih]
    simp [encode]

theorem encode_append (as bs : List Char) : encode (as ++ bs) = encode as ++ encode bs := by
  simp [encode]

theorem encode_ne_nil {cs : List Char} (h : cs ≠ []) : encode cs ≠ [] := fun he => by
  have := byteCount_pos h
  rw [← length_encode, he] at this
  exact Nat.lt_irrefl 0 this

theorem drop_encode_append (as bs : List Char) :
    (encode (as ++ bs)).drop (byteCount as) = encode bs := by
  rw [encode_append, ← length_encode, List.drop_left]

theorem bytes_ofList (cs : List Char) : bytes (String.ofList cs) = encode cs := by
  simp [bytes, encode, List.utf8Encode]

theorem utf8ByteSize_ofList (cs : List Char) :
    (String.ofList cs).utf8ByteSize = byteCount cs := by
  rw [← length_encode, ← bytes_ofList, ← String.size_toByteArray]
  simp [bytes]

/-- An offset between two characters is a character boundary. -/
theorem isValid_byteCount (pre cs : List Char) :
    String.Pos.Raw.IsValid (String.ofList (pre ++ cs)) ⟨byteCount pre⟩ := by
  rw [String.Pos.Raw.isValid_iff_exists_append]
  refine ⟨String.ofList pre, String.ofList cs, String.ofList_append, ?_⟩
  rw [← utf8ByteSize_ofList]
  rfl

/-! ### Slicing -/

/-- Reading on from offset `i`, up to the end of the characters `b`. -/
theorem extract_go₂_append (b c : List Char) (i : Nat) :
    String.Pos.Raw.extract.go₂ (b ++ c) ⟨i⟩ ⟨i + byteCount b⟩ = b := by
  induction b generalizing i with
  | nil =>
    rcases c with _ | ⟨d, c⟩
    · rfl
    · exact if_pos rfl
  | cons d b ih =>
    have hd := d.utf8Size_pos
    have hne : (⟨i⟩ : String.Pos.Raw) ≠ ⟨i + byteCount (d :: b)⟩ := fun h => by
      have := congrArg String.Pos.Raw.byteIdx h
      simp only [byteCount_cons] at this
      omega
    show (if (⟨i⟩ : String.Pos.Raw) = _ then [] else d :: String.Pos.Raw.extract.go₂ (b ++ c)
      ⟨i + d.utf8Size⟩ _) = d :: b
    rw [if_neg hne, byteCount_cons, ← Nat.add_assoc, ih]

/-- Going on from offset `i` past the characters `a`, and reading the characters `b`. -/
theorem extract_go₁_append (a b c : List Char) (i : Nat) :
    String.Pos.Raw.extract.go₁ (a ++ (b ++ c)) ⟨i⟩ ⟨i + byteCount a⟩
      ⟨i + byteCount a + byteCount b⟩ = b := by
  induction a generalizing i with
  | nil =>
    have h := extract_go₂_append b c i
    show String.Pos.Raw.extract.go₁ (b ++ c) ⟨i⟩ ⟨i⟩ ⟨i + byteCount b⟩ = b
    rcases hbc : b ++ c with _ | ⟨d, r⟩
    · exact (List.append_eq_nil_iff.mp hbc).1.symm
    · rw [hbc] at h
      exact (if_pos rfl).trans h
  | cons d a ih =>
    have hd := d.utf8Size_pos
    have hne : (⟨i⟩ : String.Pos.Raw) ≠ ⟨i + byteCount (d :: a)⟩ := fun h => by
      have := congrArg String.Pos.Raw.byteIdx h
      simp only [byteCount_cons] at this
      omega
    show (if (⟨i⟩ : String.Pos.Raw) = _ then _ else String.Pos.Raw.extract.go₁ (a ++ (b ++ c))
      ⟨i + d.utf8Size⟩ _ _) = b
    rw [if_neg hne, byteCount_cons, ← Nat.add_assoc, ih]

/-- **Slicing at cuts between characters gives the part between the cuts.** -/
theorem slice_append (a b c : List Char) :
    slice (String.ofList (a ++ (b ++ c))) (byteCount a) (byteCount a + byteCount b) =
      String.ofList b := by
  have h := extract_go₁_append a b c 0
  rw [Nat.zero_add] at h
  show (if byteCount a ≥ byteCount a + byteCount b then "" else String.ofList
    (String.Pos.Raw.extract.go₁ (String.ofList (a ++ (b ++ c))).toList ⟨0⟩ _ _)) = _
  rw [String.toList_ofList]
  split
  · have hb : byteCount b = 0 := by omega
    have : b = [] := Classical.byContradiction fun hne => by
      have := byteCount_pos hne
      omega
    rw [this]
  · exact congrArg String.ofList h

/-! ### Searching for a character of ASCII -/

theorem toNat_toUInt8 {d : Char} (hd : d.toNat < 128) : d.toUInt8.toNat = d.toNat := by
  have h : d.toUInt8.toNat = d.toNat % 256 := by rfl
  omega

theorem utf8EncodeChar_of_lt {d : Char} (hd : d.toNat < 128) :
    String.utf8EncodeChar d = [d.toUInt8] := by
  have : d.val.toNat ≤ 127 := by have : d.toNat = d.val.toNat := rfl; omega
  unfold String.utf8EncodeChar
  simp only [if_pos this]
  congr 1

/-- The byte of a character of ASCII is not among the bytes of any other character: those are bytes
of other characters of ASCII, or 128 and above. -/
theorem toUInt8_notMem_utf8EncodeChar {c d : Char} (hd : d.toNat < 128) (h : c ≠ d) :
    d.toUInt8 ∉ String.utf8EncodeChar c := by
  intro hm
  have hne : c.val.toNat ≠ d.toNat := fun he => h (Char.ext (UInt32.toNat_inj.mp he))
  have key : ∀ n, d.toUInt8 = UInt8.ofNat n → d.toNat = n % 256 := fun n he => by
    rw [← toNat_toUInt8 hd, he, UInt8.toNat_ofNat']
  unfold String.utf8EncodeChar at hm
  simp only at hm
  split at hm
  · have := key _ (List.mem_singleton.mp hm)
    omega
  · split at hm
    · simp only [List.mem_cons, List.not_mem_nil, or_false] at hm
      rcases hm with hm | hm <;> have := key _ hm <;> omega
    · split at hm
      · simp only [List.mem_cons, List.not_mem_nil, or_false] at hm
        rcases hm with hm | hm | hm <;> have := key _ hm <;> omega
      · simp only [List.mem_cons, List.not_mem_nil, or_false] at hm
        rcases hm with hm | hm | hm | hm <;> have := key _ hm <;> omega

theorem findIdx?_encode_eq_none {d : Char} (hd : d.toNat < 128) {a : List Char} (ha : d ∉ a) :
    (encode a).findIdx? (· == d.toUInt8) = none := by
  refine List.findIdx?_eq_none_iff.mpr fun x hx => ?_
  obtain ⟨c, hc, hxc⟩ := List.mem_flatMap.mp hx
  have hne : c ≠ d := fun h => ha (h ▸ hc)
  exact beq_eq_false_iff_ne.mpr fun h => toUInt8_notMem_utf8EncodeChar hd hne (h ▸ hxc)

/-- **A search for the byte of a character of ASCII stops where the character stands first.** -/
theorem findIdx?_encode {d : Char} (hd : d.toNat < 128) {a : List Char} (b : List Char)
    (ha : d ∉ a) : (encode (a ++ d :: b)).findIdx? (· == d.toUInt8) = some (byteCount a) := by
  have : encode (a ++ d :: b) = encode a ++ d.toUInt8 :: encode b := by
    simp [encode, utf8EncodeChar_of_lt hd]
  rw [this, List.findIdx?_append, findIdx?_encode_eq_none hd ha]
  simp [List.findIdx?_cons, length_encode]

end MarkupTrim.Text
