import BindingCompiler.Pragma
import BindingCompiler.Reference

/-!
Calls of stateful methods. A reference behind a number sign of code becomes a call of the pragma,
and so do the references in its arguments; everything else is taken over as it is.
-/

namespace BindingCompiler

namespace MethodCall

/-- The character that introduces a reference to a method. -/
def marker : Char := '#'

/-- What has become of an expression up to some character. -/
structure Progress where
  written : Text
  /-- The offset of the source up to which it accounts. -/
  done : Nat
  deriving DecidableEq, Repr

/-- The call for a reference behind a marker, given how to expand the arguments. -/
def call (expand : Text → Except Failure Text) (pragma : Text) (reference : Reference) :
    Except Failure Text :=
  match reference.arguments with
  | none => .ok (callByName pragma reference.name [])
  | some arguments =>
      if arguments.text.isAllBlank then
        .ok (callByName pragma reference.name [])
      else
        match expand arguments.text with
        | .ok text => .ok (callByName pragma reference.name [text])
        | .error failure => .error (failure.map (·.shift arguments.start))

/-- Write what is not written yet in front of the marker that the scanner stands on, and the call
for the reference behind it. -/
def replace (expand : Text → Except Failure Text) (pragma : Text) (s : Scanner)
    (progress : Progress) : Except Failure Progress := do
  let reference ← Reference.read .method s.source (s.position + 1)
  let some before := s.source.slice? progress.done s.position | throw .stuck
  let text ← call expand pragma reference
  return { written := progress.written ++ before ++ text, done := reference.stop }

/-- Replaces the reference behind each marker of code, and goes on behind the reference. -/
def visitMarkers (expand : Text → Except Failure Text) (pragma : Text) :
    Visitor Progress Failure :=
  Visitor.onCode fun s progress =>
    if s.here? = some marker then
      match replace expand pragma s progress with
      | .ok progress => .resumeAt progress.done progress
      | .error failure => .fail failure progress
    else
      .next progress

/-- The expression with its references to methods written as calls of the pragma. Arguments are
shorter than the expression that they stand in. -/
def expand (expression pragma : Text) : Except Failure Text :=
  let inner : Text → Except Failure Text := fun arguments =>
    if _ : arguments.length < expression.length then expand arguments pragma else .error .stuck
  match (Scanner.start expression).scan (visitMarkers inner pragma) ⟨[], 0⟩ with
  | .atEnd _ progress =>
      match expression.rest? progress.done with
      | some rest => .ok (progress.written ++ rest)
      | none => .error .stuck
  | .failed _ _ failure => .error failure
  | .stopped _ _ | .unfinished _ _ => .error .stuck
termination_by expression.length

end MethodCall

end BindingCompiler
