import BindingCompiler.Text.Boundary
import BindingCompiler.Text.Lines

/-!
Excerpts of a source text: one line around an offset, and under it a caret that points at the
offset. Line breaks inside the excerpt are shown escaped, so the excerpt stays on its line.
-/

namespace BindingCompiler

structure Window where
  start : Nat
  focus : Nat
  stop : Nat
  deriving DecidableEq, Repr

/-- The window with up to so many bytes on either side of an offset, widened to boundaries. -/
def Window.around (source : Text) (offset padding : Nat) : Window :=
  let focus := source.floorBoundary (min offset source.byteLength)
  { start := source.floorBoundary (focus - padding)
    focus
    stop := source.ceilBoundary (min (focus + padding) source.byteLength) }

/-- What is shown of a source, in front of the caret and from the caret on. -/
structure Excerpt where
  before : Text
  after : Text
  deriving DecidableEq, Repr

namespace Excerpt

/-- How many bytes are shown on either side when nothing else is asked for. -/
def defaultPadding : Nat := 25

/-- The excerpt around an offset. The two sides are escaped apart. -/
def around (source : Text) (offset padding : Nat) : Excerpt :=
  let window := Window.around source offset padding
  { before := ((source.slice? window.start window.focus).getD []).escapeLineBreaks
    after := ((source.slice? window.focus window.stop).getD []).escapeLineBreaks }

def sourceLine (e : Excerpt) : Text :=
  e.before ++ e.after

/-- The line with the caret under the character that it points at. -/
def caretLine (e : Excerpt) : Text :=
  List.replicate e.before.length ' ' ++ ['^']

def lines (e : Excerpt) : Text :=
  e.sourceLine ++ '\n' :: e.caretLine

/-- A message with a capital letter, then the lines, indented at the start and behind the first line
feed. -/
def underMessage (e : Excerpt) (message : Text) : Text :=
  capitalized message ++ ":\n\n\t".toList ++ e.lines.replaceFirst '\n' "\n\t".toList ++ ['\n']
where
  /-- Only an ASCII letter has a capital here. -/
  capitalized : Text → Text
    | [] => []
    | c :: t => c.toUpper :: t

end Excerpt

end BindingCompiler
