import BindingCompiler.Pragma

/-!
The arguments of a compile command: one source text, and options that name pragmas, in any order.
The last option for a pragma counts.
-/

namespace BindingCompiler

/-- What a compile command is to compile, and the pragmas to use. -/
structure CompileRequest where
  text : Text
  pragmas : Pragmas
  deriving DecidableEq, Repr

/-- Why arguments make no request. -/
inductive ArgumentError where
  /-- An argument begins as an option does, but is none. -/
  | unknownOption (argument : Text)
  /-- There is a source text already. -/
  | unexpectedArgument (argument : Text)
  | missingText
  deriving DecidableEq, Repr

def ArgumentError.message : ArgumentError → Text
  | unknownOption argument => "unknown option '".toList ++ argument ++ ['\x27']
  | unexpectedArgument argument => "unexpected argument '".toList ++ argument ++ ['\x27']
  | missingText => "missing source text".toList

namespace CompileRequest

/-- How the options begin, and the pragma whose name follows. -/
def options : List (Text × PragmaRole) :=
  [("--template-pragma=".toList, .template), ("--filter-pragma=".toList, .filter),
    ("--method-pragma=".toList, .method)]

/-- The pragma and the name in an option. -/
def readOption? (argument : Text) : Option (PragmaRole × Text) :=
  options.findSome? fun (start, role) => (start.isPrefixOf? argument).map fun name => (role, name)

/-- What the arguments read so far ask for. -/
structure Draft where
  text : Option Text := none
  pragmas : Pragmas := {}
  deriving DecidableEq, Repr

def Draft.add (d : Draft) (argument : Text) : Except ArgumentError Draft :=
  match readOption? argument with
  | some (role, name) => .ok { d with pragmas := d.pragmas.set role name }
  | none =>
      if "--".toList.isPrefixOf argument then
        .error (.unknownOption argument)
      else if d.text.isSome then
        .error (.unexpectedArgument argument)
      else
        .ok { d with text := some argument }

def ofArguments (arguments : List Text) : Except ArgumentError CompileRequest := do
  let draft ← arguments.foldlM Draft.add {}
  match draft.text with
  | some text => return { text, pragmas := draft.pragmas }
  | none => throw .missingText

end CompileRequest

end BindingCompiler
