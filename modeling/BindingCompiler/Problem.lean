import BindingCompiler.Excerpt

/-!
What can be wrong with a source text. A problem has a cause, and an offset into the text that was
compiled. Its cause decides its code and its wording.
-/

namespace BindingCompiler

/-- The two kinds of things that source text refers to by name. -/
inductive ReferenceKind where
  | filter
  | method
  deriving DecidableEq, Repr

def ReferenceKind.word : ReferenceKind → Text
  | filter => "filter".toList
  | method => "stateful method".toList

/-- The codes under which problems are explained, in the order of their numbers. -/
inductive Code where
  | nameStart
  | nameCharacter
  | missingName
  | openArguments
  | missingFilter
  | missingExpression
  | openTag
  | trailingText
  deriving DecidableEq, Repr

namespace Code

def all : List Code :=
  [nameStart, nameCharacter, missingName, openArguments, missingFilter, missingExpression,
    openTag, trailingText]

def label : Code → Text
  | nameStart => "G0001".toList
  | nameCharacter => "G0002".toList
  | missingName => "G0003".toList
  | openArguments => "G0004".toList
  | missingFilter => "G0005".toList
  | missingExpression => "G0006".toList
  | openTag => "G0007".toList
  | trailingText => "G0008".toList

/-- The code with a label, in capitals or not. Only ASCII letters have capitals here: no other
character has one that occurs in a label. -/
def ofLabel? (text : Text) : Option Code :=
  all.find? fun code => code.label == text.map Char.toUpper

theorem ofLabel?_label (code : Code) : ofLabel? code.label = some code := by
  cases code <;> decide

def concernsReference : Code → Bool
  | nameStart | nameCharacter | missingName | openArguments | trailingText => true
  | missingFilter | missingExpression | openTag => false

end Code

inductive Cause where
  | invalidStart (kind : ReferenceKind)
  /-- A character in front of the argument list belongs to no name. -/
  | invalidCharacter (kind : ReferenceKind)
  /-- Nothing stands in front of the argument list. -/
  | missingName (kind : ReferenceKind)
  | unclosedArguments (kind : ReferenceKind)
  | trailingText (kind : ReferenceKind)
  | missingFilter
  /-- A tag holds nothing but blanks. -/
  | missingExpression
  /-- A tag is not closed by two braces. -/
  | unterminatedTag
  deriving DecidableEq, Repr

namespace Cause

def code : Cause → Code
  | invalidStart _ => .nameStart
  | invalidCharacter _ => .nameCharacter
  | missingName _ => .missingName
  | unclosedArguments _ => .openArguments
  | trailingText _ => .trailingText
  | missingFilter => .missingFilter
  | missingExpression => .missingExpression
  | unterminatedTag => .openTag

/-- The kind of reference that was being read. -/
def kind? : Cause → Option ReferenceKind
  | invalidStart kind | invalidCharacter kind | missingName kind | unclosedArguments kind
  | trailingText kind => some kind
  | missingFilter | missingExpression | unterminatedTag => none

def message : Cause → Text
  | invalidStart kind =>
      "invalid start character for a ".toList ++ kind.word ++ " name".toList
  | invalidCharacter kind => "invalid character in ".toList ++ kind.word ++ " name".toList
  | missingName kind => kind.word ++ " must have a name".toList
  | unclosedArguments kind =>
      "missing closing parenthesis in ".toList ++ kind.word ++ " arguments".toList
  | trailingText kind => "unexpected characters after ".toList ++ kind.word ++ " arguments".toList
  | missingFilter => "missing filter expression".toList
  | missingExpression => "missing template expression".toList
  | unterminatedTag => "expecting closing template tag".toList

end Cause

/-- A cause, where in the source it was found, and whether that is in the expression of a
template tag. -/
structure Problem where
  cause : Cause
  position : Nat
  inTag : Bool := false
  deriving DecidableEq, Repr

namespace Problem

/-- The same problem seen from a text that holds the source so many bytes further on. -/
def shift (p : Problem) (bytes : Nat) : Problem :=
  { p with position := p.position + bytes }

def withinTag (p : Problem) : Problem :=
  { p with inTag := true }

def message (p : Problem) : Text :=
  if p.inTag then "error in template expression: ".toList ++ p.cause.message
  else p.cause.message

/-- The problem with its code and an excerpt of the source that it was found in. -/
def report (p : Problem) (source : Text) : Text :=
  "error[".toList ++ p.cause.code.label ++ "]: ".toList ++
    (Excerpt.around source p.position Excerpt.defaultPadding).underMessage p.message

end Problem

/-- Why a text was not compiled. -/
inductive Failure where
  | problem (problem : Problem)
  /-- A step could not be taken at all: a cut inside a character, a count below zero, or a scan
  or recursion that did not come nearer to its end. -/
  | stuck
  deriving DecidableEq, Repr

namespace Failure

def found (cause : Cause) (position : Nat) : Failure :=
  .problem { cause, position }

/-- Change the problem, if the text is at fault. -/
def map (change : Problem → Problem) : Failure → Failure
  | problem p => .problem (change p)
  | stuck => .stuck

end Failure

end BindingCompiler
