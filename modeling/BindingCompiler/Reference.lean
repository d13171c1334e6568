import BindingCompiler.Problem
import BindingCompiler.Scanner.Visit

/-!
References to filters and methods: a name, with or without a parenthesised list of arguments. The
arguments are not read any further than to find the parenthesis that closes them; parentheses in
strings do not count.
-/

namespace BindingCompiler

/-- The characters of names: ASCII letters, digits, the underscore and the dollar sign. -/
def isNameChar (c : Char) : Bool :=
  c.isAlphanum || c == '_' || c == '$'

/-- The characters that a name may have but not begin with. -/
def cannotStartName (c : Char) : Bool :=
  c.isDigit || c == '$'

/-- The text between the parentheses of a reference, and its offset. -/
structure Arguments where
  text : Text
  start : Nat
  deriving DecidableEq, Repr

/-- A reference, and the offset at which it ends. -/
structure Reference where
  name : Text
  arguments : Option Arguments
  stop : Nat
  deriving DecidableEq, Repr

namespace Reference

/-- The first character between two offsets that is not a blank of code. Of the text that a scan
leaves out between two characters of code, this is the mark of a string. -/
def foreign? (source : Text) (start stop : Nat) : Option Nat :=
  if start = stop then
    none
  else
    match source.slice? start stop with
    | none => none
    | some gap =>
        if gap.all isCodeBlank then none
        else some (start + Text.byteLength (gap.takeWhile isCodeBlank))

/-- Takes the characters of a name up to an opening parenthesis. The memory is the offset up to
which the name was seen to be good. -/
def visitName (kind : ReferenceKind) : Visitor Nat Failure := fun s seen =>
  match foreign? s.source seen s.position with
  | some position => .fail (.found (.invalidCharacter kind) position) seen
  | none =>
      match s.inCode, s.here? with
      | true, some '(' => .stop seen
      | true, some c =>
          if isNameChar c then .next (s.position + 1)
          else .fail (.found (.invalidCharacter kind) s.position) seen
      | _, _ => .fail (.found (.invalidCharacter kind) s.position) seen

/-- Counts the open parentheses of code and stops where the last one closes. -/
def visitArguments : Visitor Nat Failure :=
  Visitor.onCode fun s depth =>
    match s.here?, depth with
    | some '(', _ => .next (depth + 1)
    | some ')', 0 => .fail .stuck depth
    | some ')', 1 => .stop 0
    | some ')', d + 2 => .next (d + 1)
    | _, _ => .next depth

/-- The arguments of a reference whose scanner stands on the parenthesis that opens them. -/
def readArguments (kind : ReferenceKind) (s : Scanner) : Except Failure Arguments :=
  let inside := s.advance
  match inside.scan visitArguments 1 with
  | .stopped closing _ =>
      match s.source.slice? inside.position closing.position with
      | some text => .ok ⟨text, inside.position⟩
      | none => .error .stuck
  | .atEnd _ _ => .error (.found (.unclosedArguments kind) s.position)
  | .failed _ _ failure => .error failure
  | .unfinished _ _ => .error .stuck

/-- The name between two offsets, without the blanks around it. -/
def readName (kind : ReferenceKind) (source : Text) (start stop : Nat) : Except Failure Text :=
  match source.slice? start stop with
  | none => .error .stuck
  | some text =>
      if text.isAllBlank then .error (.found (.missingName kind) start) else .ok text.trim

/-- Read the reference that begins at an offset. A name with no argument list goes on to the end
of the source. Problems are found at offsets of the source. -/
def read (kind : ReferenceKind) (source : Text) (offset : Nat) : Except Failure Reference := do
  let s := Scanner.startAt source offset
  let start := s.position
  let some rest := source.rest? start | throw .stuck
  if rest.trimStart.head?.any cannotStartName then
    throw (.found (.invalidStart kind) (start + rest.indent))
  match s.scan (visitName kind) start with
  | .failed _ _ failure => throw failure
  | .unfinished _ _ => throw .stuck
  | .atEnd _ seen =>
      if let some position := foreign? source seen source.byteLength then
        throw (.found (.invalidCharacter kind) position)
      let name ← readName kind source start source.byteLength
      return { name, arguments := none, stop := source.byteLength }
  | .stopped opening _ =>
      let name ← readName kind source start opening.position
      let arguments ← readArguments kind opening
      let stop := arguments.start + arguments.text.byteLength + 1
      return { name, arguments := some arguments, stop }

end Reference

end BindingCompiler
