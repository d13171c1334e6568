import BindingCompiler.Command.Arguments
import BindingCompiler.Compiler
import BindingCompiler.Explanation

/-!
The command line: what each command prints, and the status that it exits with.
-/

namespace BindingCompiler.Command

/-- What a command leaves behind. -/
structure Output where
  exit : Nat := 0
  stdout : Text := []
  stderr : Text := []
  deriving DecidableEq, Repr

def version : Text := "0.1.0".toList

def usage : Text :=
  Text.ofLines
    ["Galaxy Compiler",
      "",
      "Usage: galaxy <command> [options]",
      "",
      "Commands:",
      "  template <text>      Compile template text with \x7b\x7b \x7d\x7d interpolations",
      "  expr <text>          Compile an expression, filters allowed",
      "  event <text>         Compile an event handler, #methods allowed",
      "  explain <code>       Explain an error code (e.g., G0006)",
      "  help                 Show this help message",
      "  version              Show version information",
      "",
      "Compile options:",
      "  --template-pragma=<name>  Function wrapping interpolations (default: __$n)",
      "  --filter-pragma=<name>    Function applying filters (default: $filter)",
      "  --method-pragma=<name>    Function invoking #methods (default: $commit)",
      "",
      "Examples:",
      "  galaxy template 'Hello, \x7b\x7b name |> upper \x7d\x7d!'",
      "  galaxy expr 'price |> currency(\"EUR\")'",
      "  galaxy event '#save(item)'",
      "  galaxy explain G0001",
      "  RUST_LOG=galaxy_rewrite=trace galaxy expr 'a |> b'"]

/-- How a compile command is called. -/
def compileUsage (kind : SourceKind) : Text :=
  "Usage: galaxy ".toList ++ kind.word ++ " <text> [options]\n".toList

/-- Compile the text in the arguments and print the source of the evaluator, or report what is
wrong with the arguments or the text. A text on which compiling is stuck has nothing wrong with it
that could be reported. -/
def compile (kind : SourceKind) (arguments : List Text) : Output :=
  match CompileRequest.ofArguments arguments with
  | .error error =>
      { exit := 1
        stderr := "error: ".toList ++ error.message ++ '\n' :: compileUsage kind }
  | .ok request =>
      let compiler : Compiler := { number := 0, pragmas := request.pragmas }
      match (compiler.compile (.source kind) request.text).2 with
      | .ok (_, evaluator) => { stdout := evaluator.source ++ ['\n'] }
      | .error (.problem problem) =>
          { exit := 1
            stderr := problem.report request.text ++
              "\nFor more information about this error, try \x60galaxy explain ".toList ++
              problem.cause.code.label ++ "\x60.\n".toList }
      | .error .stuck => { exit := 101 }

/-- Print the page for a code. -/
def explain (label : Text) : Output :=
  match Code.ofLabel? label with
  | some code => { stdout := code.explanation ++ ['\n'] }
  | none =>
      { exit := 1
        stderr := "Unknown error code: ".toList ++ label ++ Text.ofLines
          ["", "", "Codes have the format GXXXX where X is a digit.", "Examples: G0001, G0006"] }

/-- Run the command that the arguments name. -/
def run : List Text → Output
  | [] => { stdout := usage }
  | command :: arguments =>
      if command ∈ ["help".toList, "--help".toList, "-h".toList] then
        { stdout := usage }
      else if command ∈ ["version".toList, "--version".toList, "-v".toList] then
        { stdout := "Galaxy Compiler ".toList ++ version ++ ['\n'] }
      else if command ∈ ["--explain".toList, "explain".toList] then
        match arguments with
        | label :: _ => explain label
        | [] =>
            { exit := 1
              stderr := Text.ofLines
                ["Usage: galaxy explain <ERROR_CODE>", "Example: galaxy explain G0006"] }
      else
        match SourceKind.ofWord? command, arguments with
        | some kind, _ :: _ => compile kind arguments
        | some kind, [] => { exit := 1, stderr := compileUsage kind }
        | none, _ =>
            { exit := 2
              stdout := usage
              stderr := "Unknown command: ".toList ++ command ++ "\n\n".toList }

end BindingCompiler.Command
