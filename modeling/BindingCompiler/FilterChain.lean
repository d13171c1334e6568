import BindingCompiler.Pragma
import BindingCompiler.Reference

/-!
Filter chains. An expression may pass its value through filters, each after a bar and an angle
bracket; the chain becomes nested calls, the first filter innermost. Separators inside brackets,
braces and strings belong to the expression around them.
-/

namespace BindingCompiler

/-- A part of an expression, and its offset. -/
structure Segment where
  start : Nat
  text : Text
  deriving DecidableEq, Repr

namespace FilterChain

/-- What is known of an expression up to some character. -/
structure Progress where
  /-- How many round and square brackets are open. -/
  brackets : Nat
  /-- Where the segment begins that is not yet at its end. -/
  start : Nat
  /-- The segments in front of it, last first. -/
  segments : List Segment
  deriving DecidableEq, Repr

/-- Count a bracket of code. One that closes nothing leaves the count at zero. -/
def countBracket (c : Char) (brackets : Nat) : Nat :=
  if c = '(' ∨ c = '[' then brackets + 1
  else if c = ')' ∨ c = ']' then brackets - 1
  else brackets

/-- The scanner stands on the second character of a separator. -/
def onSeparator (s : Scanner) : Bool :=
  s.here? == some '>' && s.before? == some '|'

/-- Ends a segment at each separator that no bracket or brace encloses. -/
def visitSegments : Visitor Progress Failure :=
  Visitor.onCode fun s progress =>
    let brackets := s.here?.elim progress.brackets (countBracket · progress.brackets)
    if brackets = 0 ∧ s.nesting.depth = 0 ∧ onSeparator s then
      match s.source.slice? progress.start (s.position - 1) with
      | some text =>
          .next
            { brackets
              start := s.position + 1
              segments := ⟨progress.start, text⟩ :: progress.segments }
      | none => .fail .stuck progress
    else
      .next { progress with brackets }

/-- The segments of an expression: the base value, then the filters. -/
def split (expression : Text) : Except Failure (List Segment) :=
  match (Scanner.start expression).scan visitSegments ⟨0, 0, []⟩ with
  | .atEnd _ progress =>
      match expression.rest? progress.start with
      | some text => .ok (progress.segments.reverse ++ [⟨progress.start, text⟩])
      | none => .error .stuck
  | .failed _ _ failure => .error failure
  | .stopped _ _ | .unfinished _ _ => .error .stuck

/-- Pass a value through the filter of a segment. Arguments are taken over as they are. -/
def apply (pragma value : Text) (segment : Segment) : Except Failure Text := do
  let filter := segment.text.trim
  if filter.isEmpty then
    throw (.found .missingFilter segment.start)
  let offset := segment.start + segment.text.indent
  let reference ← (Reference.read .filter filter 0).mapError (·.map (·.shift offset))
  let some rest := filter.rest? reference.stop | throw .stuck
  unless rest.isAllBlank do
    throw (.found (.trailingText .filter) (offset + reference.stop + rest.indent))
  let operands :=
    match reference.arguments with
    | some arguments => if arguments.text.isAllBlank then [] else [arguments.text]
    | none => []
  return callByName pragma reference.name (value :: operands)

/-- The expression with its filters written as calls of the pragma. -/
def compile (expression pragma : Text) : Except Failure Text := do
  match ← split expression with
  | [] => return []
  | base :: filters => filters.foldlM (apply pragma) base.text.trim

end FilterChain

end BindingCompiler
