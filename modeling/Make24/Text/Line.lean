namespace Make24.Text

/-- The bytes up to the first line feed, which ends the line and belongs to it. -/
def firstLine : List UInt8 → List UInt8
  | [] => []
  | byte :: bytes => if byte = 10 then [byte] else byte :: firstLine bytes

theorem firstLine_of_not_mem {line : List UInt8} (h : 10 ∉ line) : firstLine line = line := by
  induction line with
  | nil => rfl
  | cons byte line ih =>
    simp only [List.mem_cons, not_or] at h
    rw [firstLine, if_neg (fun he => h.1 he.symm), ih h.2]

/-- There is no text if the bytes are no UTF-8. -/
def decode? (bytes : List UInt8) : Option String :=
  String.fromUTF8? ⟨bytes.toArray⟩

end Make24.Text
