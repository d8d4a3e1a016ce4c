import Mathlib.Data.List.DropRight
import Formula.Text.Blank

/-!
# Trimmed texts

What is dropped at the end of a text is its longest part there that the test accepts. So a text
with more of that at its end is trimmed to the same text, and what is trimmed ends with no blank.
-/

set_option autoImplicit false

namespace Formula.Text

theorem exists_eq_dropRightWhile_append (test : Char → Bool) (text : List Char) :
    ∃ ends, text = dropRightWhile test text ++ ends ∧ ∀ c ∈ ends, test c = true :=
  ⟨text.rtakeWhile test, List.rdropWhile_append_rtakeWhile.symm,
    fun _ => List.mem_rtakeWhile_imp⟩

theorem dropRightWhile_concat {test : Char → Bool} {c : Char} (h : test c = false)
    (text : List Char) : dropRightWhile test (text ++ [c]) = text ++ [c] :=
  List.rdropWhile_concat_neg test text c (Bool.eq_false_iff.mp h)

theorem dropRightWhile_append {test : Char → Bool} {ends : List Char}
    (h : ∀ c ∈ ends, test c = true) (text : List Char) :
    dropRightWhile test (text ++ ends) = dropRightWhile test text := by
  have hends : ∀ c ∈ ends.reverse, test c = true := fun c hc => h c (List.mem_reverse.mp hc)
  rw [dropRightWhile, List.reverse_append, List.dropWhile_append_of_pos hends, dropRightWhile]

theorem trim_append {blanks : List Char} (h : ∀ c ∈ blanks, isBlank c = true) (text : List Char) :
    trim (text ++ blanks) = trim text := by
  rw [trim, List.dropWhile_append]
  split
  · rename_i hempty
    rw [trim, List.isEmpty_iff.mp hempty, List.dropWhile_eq_nil_iff.mpr h]
  · exact dropRightWhile_append h _

theorem isBlank_of_trimRight_eq_concat {text before : List Char} {c : Char}
    (h : trimRight text = before ++ [c]) : isBlank c = false := by
  have hlast := text.rdropWhile_last_not isBlank
  change ∀ hne : trimRight text ≠ [], ¬ isBlank ((trimRight text).getLast hne) = true at hlast
  simpa [h] using hlast

end Formula.Text
