import Formula.Command.Script

/-!
# Lines that are typed

A line is typed as the bytes of its text and a line feed. The encoding of no other character holds
the byte of the line feed, so that the lines of an input are found again one by one.
-/

set_option autoImplicit false

namespace Formula.Command

/-- The text in UTF-8. -/
def bytes (text : String) : List UInt8 :=
  text.toUTF8.data.toList

/-- The lines one after the other, each ended by a line feed. -/
def typed (lines : List String) : List UInt8 :=
  lines.flatMap fun line => bytes (line ++ "\n")

theorem bytes_eq_flatMap (text : String) :
    bytes text = text.toList.flatMap String.utf8EncodeChar := by
  rw [bytes, String.toUTF8_eq_toByteArray, ← String.utf8Encode_toList, List.utf8Encode,
    List.data_toByteArray]

theorem bytes_append (text text' : String) : bytes (text ++ text') = bytes text ++ bytes text' := by
  simp [bytes_eq_flatMap]

/-- A byte of a character is the only one, or it is beyond those that stand alone. -/
theorem toNat_of_mem_utf8EncodeChar {c : Char} {byte : UInt8}
    (h : byte ∈ String.utf8EncodeChar c) : byte.toNat = c.toNat ∨ 128 ≤ byte.toNat := by
  simp only [String.utf8EncodeChar, Char.toNat_val] at h
  split at h
  · obtain rfl := List.mem_singleton.mp h
    left
    rw [UInt8.toNat_ofNat']
    omega
  · right
    have hbeyond {n : Nat} (h : 128 ≤ n % 256) : 128 ≤ (UInt8.ofNat n).toNat := by
      rwa [UInt8.toNat_ofNat']
    split at h
    · simp only [List.mem_cons, List.not_mem_nil, or_false] at h
      rcases h with rfl | rfl <;> exact hbeyond (by omega)
    · split at h
      · simp only [List.mem_cons, List.not_mem_nil, or_false] at h
        rcases h with rfl | rfl | rfl <;> exact hbeyond (by omega)
      · simp only [List.mem_cons, List.not_mem_nil, or_false] at h
        rcases h with rfl | rfl | rfl | rfl <;> exact hbeyond (by omega)

theorem eq_lineFeed_of_mem_utf8EncodeChar {c : Char} (h : 10 ∈ String.utf8EncodeChar c) :
    c = '\n' := by
  rcases toNat_of_mem_utf8EncodeChar h with hbyte | hbyte
  · exact Char.toNat_inj.mp hbyte.symm
  · exact absurd hbyte (by decide)

theorem lineFeed_notMem_bytes {text : String} (h : '\n' ∉ text.toList) : 10 ∉ bytes text := by
  rw [bytes_eq_flatMap, List.mem_flatMap]
  rintro ⟨c, hc, hbyte⟩
  exact h (eq_lineFeed_of_mem_utf8EncodeChar hbyte ▸ hc)

theorem decodeLine_bytes (text : String) : decodeLine (bytes text) = some text :=
  Text.fromUTF8?_toUTF8 text

theorem splitLine_append {line : List UInt8} (h : 10 ∉ line) (rest : List UInt8) :
    splitLine (line ++ 10 :: rest) = (line ++ [10], rest) := by
  induction line with
  | nil => rfl
  | cons byte line ih =>
    rw [List.mem_cons, not_or] at h
    rw [List.cons_append, splitLine, if_neg (Ne.symm h.1), ih h.2]
    rfl

theorem splitLine_typed_cons {line : String} (h : '\n' ∉ line.toList) (lines : List String)
    (rest : List UInt8) :
    splitLine (typed (line :: lines) ++ rest) = (bytes (line ++ "\n"), typed lines ++ rest) := by
  have hbytes : bytes (line ++ "\n") = bytes line ++ [10] := bytes_append line "\n"
  rw [typed, List.flatMap_cons, hbytes, List.append_assoc, List.append_assoc, List.singleton_append,
    splitLine_append (lineFeed_notMem_bytes h), typed]

end Formula.Command
