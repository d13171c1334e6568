import BindingCompiler.Text.Basic

/-!
Blank characters and trimming. A character is blank when it has the Unicode property
White_Space; the smaller class that counts as blank in code has only its ASCII members.
-/

namespace BindingCompiler

/-- The six ASCII blanks, which mean nothing between the characters of code. -/
def isCodeBlank (c : Char) : Bool :=
  c == ' ' || ('\t' ≤ c && c ≤ '\r')

/-- The Unicode property White_Space. -/
def isBlank (c : Char) : Bool :=
  isCodeBlank c || c == '\u0085' || c == '\u00a0' || c == '\u1680' ||
    ('\u2000' ≤ c && c ≤ '\u200a') || c == '\u2028' || c == '\u2029' || c == '\u202f' ||
    c == '\u205f' || c == '\u3000'

theorem isBlank_of_isCodeBlank {c : Char} (h : isCodeBlank c) : isBlank c := by
  simp [isBlank, h]

namespace Text

def trimStart (t : Text) : Text :=
  t.dropWhile isBlank

def trimEnd (t : Text) : Text :=
  (t.reverse.dropWhile isBlank).reverse

/-- The text without the blanks at either end. -/
def trim (t : Text) : Text :=
  t.trimStart.trimEnd

/-- The number of bytes in the blanks that a text begins with. -/
def indent (t : Text) : Nat :=
  byteLength (t.takeWhile isBlank)

/-- A text with no character but blanks. -/
def isAllBlank (t : Text) : Bool :=
  t.all isBlank

theorem takeWhile_append_trimStart (t : Text) : t.takeWhile isBlank ++ t.trimStart = t :=
  List.takeWhile_append_dropWhile

end Text

end BindingCompiler
