import BindingCompiler.Evaluator
import BindingCompiler.MethodCall
import BindingCompiler.TemplateText

/-!
A compiler turns source text into evaluators and keeps every evaluator that it made. A body that
it has compiled before is not compiled again: the answer is the evaluator that it kept.
-/

namespace BindingCompiler

/-- What a source text is. -/
inductive SourceKind where
  /-- Text with tags. -/
  | template
  /-- An expression that may pass through filters. -/
  | expression
  /-- An event handler that may call stateful methods. -/
  | event
  deriving DecidableEq, Repr

namespace SourceKind

def word : SourceKind → Text
  | template => "template".toList
  | expression => "expr".toList
  | event => "event".toList

def ofWord? (text : Text) : Option SourceKind :=
  if text = "template".toList then some template
  else if text = "expr".toList ∨ text = "expression".toList then some expression
  else if text = "event".toList then some event
  else none

theorem ofWord?_word (kind : SourceKind) : ofWord? kind.word = some kind := by
  cases kind <;> decide

end SourceKind

/-- What an evaluator is wanted for. -/
inductive Task where
  /-- To compute the value of a source text, or to handle an event. -/
  | source (kind : SourceKind)
  /-- To assign to an expression. -/
  | setter
  /-- To return the value of an expression that is already plain. -/
  | getter
  /-- To run a body that is already plain. -/
  | body
  deriving DecidableEq, Repr

/-- A compiler, its number, and the evaluators that it made, oldest first. -/
structure Compiler where
  number : Nat
  pragmas : Pragmas
  evaluators : List Evaluator := []
  deriving DecidableEq, Repr

namespace Compiler

/-- The body of the evaluator for a task. -/
def bodyFor (c : Compiler) (task : Task) (text : Text) : Except Failure Text :=
  match task with
  | .source .template => (TemplateText.compile c.pragmas text).map getterBody
  | .source .expression => (FilterChain.compile text c.pragmas.filter).map getterBody
  | .source .event => MethodCall.expand text c.pragmas.method
  | .setter => .ok (setterBody c.number text)
  | .getter => .ok (getterBody text)
  | .body => .ok text

/-- The evaluator for a body, and its place among the evaluators of the compiler. -/
def evaluatorFor (c : Compiler) (body : Text) : Compiler × Nat × Evaluator :=
  match c.evaluators.findIdx? (·.body == body), c.evaluators.find? (·.body == body) with
  | some slot, some evaluator => (c, slot, evaluator)
  | _, _ =>
      let evaluator := { compiler := c.number, body }
      ({ c with evaluators := c.evaluators ++ [evaluator] }, c.evaluators.length, evaluator)

/-- Compile a text for a task. A text that is at fault leaves the compiler as it is. -/
def compile (c : Compiler) (task : Task) (text : Text) :
    Compiler × Except Failure (Nat × Evaluator) :=
  match c.bodyFor task text with
  | .ok body =>
      let (c, entry) := c.evaluatorFor body
      (c, .ok entry)
  | .error failure => (c, .error failure)

end Compiler

end BindingCompiler
