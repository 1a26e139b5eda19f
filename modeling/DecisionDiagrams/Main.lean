/-
The `robdd` command: runs a command line, printing its answer on standard output and its error,
after `robdd: `, on standard error, and exits with its exit code.
-/
import DecisionDiagrams.Cli.Commands

open DecisionDiagrams

/-- Reads the settings file named on a command line, answering what reading gives for that
path only: its text, a directory, or nothing. -/
def settingsFile (args : List String) : IO (String → FileRead) := do
  match Cli.configPath args with
  | none => pure fun _ => .missing
  | some p =>
    let read ← try FileRead.text <$> IO.FS.readFile p catch e => pure (match e with
      | .inappropriateType .. => .directory
      | _ => .missing)
    pure fun q => if q = p then read else .missing

/-- The command line of the tool. -/
def main (args : List String) : IO UInt32 := do
  let file ← settingsFile args
  let env ← IO.getEnv "ROBDD_ADDR"
  let o := Cli.run args file env
  IO.print o.stdout
  match o.error with
  | some e => IO.eprintln ("robdd: " ++ e)
  | none => pure ()
  return o.exitCode.toUInt32
