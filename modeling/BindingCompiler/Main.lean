import BindingCompiler.Command.Run

/-!
The program: runs the command in its arguments and prints what the command leaves behind.
-/

open BindingCompiler

def main (arguments : List String) : IO UInt32 := do
  let output := Command.run (arguments.map String.toList)
  (← IO.getStdout).putStr (String.ofList output.stdout)
  (← IO.getStderr).putStr (String.ofList output.stderr)
  return output.exit.toUInt32
