import Make24.Text.Line

namespace Make24.Text

/-- The bytes of a text in UTF-8. -/
def encode (text : String) : List UInt8 :=
  text.toUTF8.data.toList

theorem encode_eq_flatMap (text : String) :
    encode text = text.toList.flatMap String.utf8EncodeChar := by
  rw [encode, String.toUTF8_eq_toByteArray, ← String.utf8Encode_toList, List.utf8Encode,
    List.data_toByteArray]

@[simp] theorem encode_append (first second : String) :
    encode (first ++ second) = encode first ++ encode second := by
  simp [encode_eq_flatMap]

theorem decode?_encode (text : String) : decode? (encode text) = some text := by
  simp only [decode?, encode, String.fromUTF8?, Array.toArray_toList]
  exact dif_pos text.isValidUTF8

/-- Bytes that decode are those of the text. -/
theorem decode?_eq_some_iff : decode? bytes = some text ↔ encode text = bytes := by
  constructor
  · intro h
    unfold decode? String.fromUTF8? at h
    split at h
    · cases h
      rfl
    · cases h
  · rintro rfl
    exact decode?_encode text

theorem decode?_eq_none_iff : decode? bytes = none ↔ ∀ text, encode text ≠ bytes := by
  rw [Option.eq_none_iff_forall_ne_some]
  simp only [ne_eq, decode?_eq_some_iff]

/-- A byte below 128 encodes the character with its number. -/
theorem toNat_of_mem_utf8EncodeChar (h : b ∈ String.utf8EncodeChar c) (hb : b.toNat < 128) :
    c.toNat = b.toNat := by
  revert h
  fun_cases String.utf8EncodeChar c with
  | case1 v hv =>
    intro h
    have hlt : v < 2 ^ 8 := Nat.lt_of_le_of_lt hv (by decide)
    rw [List.mem_singleton.mp h, UInt8.toNat_ofNat', Nat.mod_eq_of_lt hlt]
    rfl
  | _ =>
    -- All bytes of a longer encoding have their highest bit set.
    intro h
    simp only [List.mem_cons, List.not_mem_nil, or_false] at h
    rcases h with rfl | rfl | rfl | rfl <;> rw [UInt8.toNat_ofNat'] at hb <;> omega

theorem not_mem_encode (h : '\n' ∉ text.toList) : 10 ∉ encode text := by
  rw [encode_eq_flatMap, List.mem_flatMap]
  rintro ⟨c, hc, hb⟩
  have hnum : c.toNat = '\n'.toNat := toNat_of_mem_utf8EncodeChar hb (by decide)
  rw [Char.toNat_inj.mp hnum] at hc
  exact h hc

/-- The first line of some bytes: all of them, or those up to the first line feed. -/
inductive FirstLine : List UInt8 → List UInt8 → Prop where
  | whole (bytes : List UInt8) (h : 10 ∉ bytes) : FirstLine bytes bytes
  | ended (bytes more : List UInt8) (h : 10 ∉ bytes) :
    FirstLine (bytes ++ 10 :: more) (bytes ++ [10])

theorem firstLine_append_of_not_mem {bytes : List UInt8} (h : 10 ∉ bytes) (more : List UInt8) :
    firstLine (bytes ++ more) = bytes ++ firstLine more := by
  induction bytes with
  | nil => rfl
  | cons byte bytes ih =>
    simp only [List.mem_cons, not_or] at h
    rw [List.cons_append, firstLine, if_neg (Ne.symm h.1), ih h.2, List.cons_append]

namespace FirstLine

theorem firstLine_eq (h : FirstLine input line) : firstLine input = line := by
  cases h with
  | whole _ h => exact firstLine_of_not_mem h
  | ended bytes more h => exact firstLine_append_of_not_mem h (10 :: more)

/-- A first line is its own first line. -/
theorem alone (h : FirstLine input line) : FirstLine line line := by
  cases h with
  | whole _ h => exact whole _ h
  | ended bytes _ h => exact ended bytes [] h

end FirstLine

/-- Any bytes have one first line, and that is what is read. -/
theorem firstLine_eq_iff : firstLine input = line ↔ FirstLine input line := by
  constructor
  · rintro rfl
    by_cases h : 10 ∈ input
    · obtain ⟨bytes, more, rfl, hbytes⟩ := List.eq_append_cons_of_mem h
      have hline := FirstLine.ended bytes more hbytes
      rwa [hline.firstLine_eq]
    · rw [firstLine_of_not_mem h]
      exact .whole input h
  · exact FirstLine.firstLine_eq

end Make24.Text
