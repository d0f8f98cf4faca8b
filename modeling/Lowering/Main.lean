import Lowering.CommandLine
/-!
The program.
-/

def main (arguments : List String) : IO UInt32 := do
  let r := Lowering.CommandLine.run arguments
  IO.print r.output
  match r.complaint with
  | some text => IO.eprintln text
  | none => pure ()
  return r.code
