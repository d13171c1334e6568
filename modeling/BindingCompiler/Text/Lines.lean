import BindingCompiler.Text.Basic

/-!
Lines of text: written with a line feed after each, or shown on one line with their breaks escaped.
-/

namespace BindingCompiler.Text

/-- The text on one line: a line feed, with a carriage return in front of it or not, becomes a
backslash and the letter n. -/
def escapeLineBreaks : Text → Text
  | [] => []
  | '\r' :: '\n' :: t => '\\' :: 'n' :: escapeLineBreaks t
  | '\n' :: t => '\\' :: 'n' :: escapeLineBreaks t
  | c :: t => c :: escapeLineBreaks t

/-- Each line followed by a line feed. -/
def ofLines (lines : List String) : Text :=
  lines.flatMap fun line => line.toList ++ ['\n']

/-- The text with the first occurrence of a character replaced. -/
def replaceFirst (t : Text) (c : Char) (replacement : Text) : Text :=
  match t with
  | [] => []
  | d :: t => if d = c then replacement ++ t else d :: replaceFirst t c replacement

/-- No line feed is left. -/
theorem lineFeed_not_mem_escapeLineBreaks (t : Text) : '\n' ∉ escapeLineBreaks t := by
  fun_induction escapeLineBreaks t with
  | case1 => exact List.not_mem_nil
  | case2 t ih => simpa using ih
  | case3 t ih => simpa using ih
  | case4 c t _ hc ih =>
      intro h
      rcases List.mem_cons.1 h with h | h
      · exact hc h.symm
      · exact ih h

theorem replaceFirst_append {c : Char} {front : Text} (h : c ∉ front) (replacement back : Text) :
    replaceFirst (front ++ c :: back) c replacement = front ++ (replacement ++ back) := by
  induction front with
  | nil => simp [replaceFirst]
  | cons d front ih =>
      have hd : d ≠ c := (List.ne_of_not_mem_cons h).symm
      rw [List.cons_append, replaceFirst, if_neg hd, ih (List.not_mem_of_not_mem_cons h),
        List.cons_append]

end BindingCompiler.Text
