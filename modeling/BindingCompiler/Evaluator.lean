import BindingCompiler.Text.Basic

/-!
Evaluators: functions that a runtime is to build. The first parameter receives local names, the
second the remaining arguments; the body runs with the receiver, its state and the local names as
nested scopes. Both parameters are named after the compiler that made the evaluator, so the body of
an evaluator cannot take hold of the parameters of another compiler's.
-/

namespace BindingCompiler

/-- A compiled body, and the number of its compiler. -/
structure Evaluator where
  compiler : Nat
  body : Text
  deriving DecidableEq, Repr

/-- The name of a parameter of every evaluator of a compiler. -/
def parameterName (role : Text) (compiler : Nat) : Text :=
  "__".toList ++ role ++ '_' :: Nat.toDigits 10 compiler ++ "__".toList

namespace Evaluator

def localsName (e : Evaluator) : Text :=
  parameterName "locals".toList e.compiler

def restName (e : Evaluator) : Text :=
  parameterName "args".toList e.compiler

/-- The parameters as they are written in a parameter list. -/
def parameters (e : Evaluator) : List Text :=
  [e.localsName, "...".toList ++ e.restName]

/-- The body inside its scopes, outermost first. -/
def scopedBody (e : Evaluator) : Text :=
  "with (this) \x7bwith (state) \x7bwith (".toList ++ e.localsName ++ ") \x7b".toList ++ e.body ++
    "\x7d\x7d\x7d".toList

def source (e : Evaluator) : Text :=
  "function (".toList ++ List.intercalate ", ".toList e.parameters ++ ") \x7b".toList ++
    e.scopedBody ++ "\x7d".toList

end Evaluator

/-- A body that returns the value of an expression. -/
def getterBody (expression : Text) : Text :=
  "return ".toList ++ expression

/-- A body that assigns the first of the remaining arguments to an expression. -/
def setterBody (compiler : Nat) (expression : Text) : Text :=
  '(' :: expression ++ " = ".toList ++ parameterName "args".toList compiler ++ "[0])".toList

end BindingCompiler
