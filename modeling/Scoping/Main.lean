import Scoping.Command.Line

/-!
The program: its command line, attached to the standard streams and the exit code.
-/

def main (args : List String) : IO UInt32 := do
  let outcome := Scoping.Command.run args
  (← IO.getStdout).putStr outcome.stdout
  (← IO.getStderr).putStr outcome.stderr
  return outcome.code
