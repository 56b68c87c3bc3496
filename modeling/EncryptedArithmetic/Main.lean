import EncryptedArithmetic.CommandLine.Session
import EncryptedArithmetic.Sampling.Seeded

/-!
# The program

Reads the arguments, the configuration and the input, and prints what `CommandLine` says.
-/

namespace EncryptedArithmetic.CommandLine

/-- A word of entropy. -/
def entropy : IO UInt64 :=
  return (← IO.getRandomBytes 8).foldl (fun n b => n * 256 + b.toUInt64) 0

/-- A calculator with keys and encryptions from entropy. -/
def freshCalculator (config : Config) : IO (Calculator Generator) := do
  let keys := Generator.ofSeed (← entropy)
  let seed ← entropy
  return Calculator.create config (.flowing keys) fun request =>
    Generator.ofSeed (seed ^^^ (request <<< 32))

/-- Prints to both streams. -/
def put (p : Printed) : IO Unit := do
  IO.print p.out
  IO.eprint p.err
  (← IO.getStdout).flush

/-- The configuration in a file, or the default one. -/
def loadConfig (file? : Option String) : IO (Except String Config) := do
  match file? with
  | none => return .ok {}
  | some file =>
    try
      let text ← IO.FS.readFile file
      return (Config.ofText? text).elim (.error s!"loading {file}: invalid config") .ok
    catch e => return .error s!"loading {file}: {e}"

/-- Evaluates lines from the input as they come. -/
partial def interact (c : Calculator Generator) (ok : Bool) : IO UInt32 := do
  let text ← (← IO.getStdin).getLine
  match if text.isEmpty then none else line Generator.sampler c text with
  | none =>
    IO.println ""
    return if ok then 0 else 1
  | some (.error _, _) => return 101
  | some (.ok printed, c) =>
    put (printed ++ { out := prompt })
    interact c (ok && printed.ok)

/-- Runs an invocation. -/
def execute (i : Invocation) : IO UInt32 := do
  match ← loadConfig i.config? with
  | .error message =>
    IO.eprintln s!"Error: {message}"
    return 1
  | .ok config =>
    let c ← freshCalculator config
    match i.command with
    | .repl =>
      put { out := prompt }
      interact c true
    | command =>
      match run Generator.sampler c command [] with
      | .error _ => return 101
      | .ok printed =>
        put printed
        return exitCode printed

end EncryptedArithmetic.CommandLine

open EncryptedArithmetic.CommandLine in
/-- The program. -/
def main (arguments : List String) : IO UInt32 := do
  match parse arguments with
  | .error (.help topic) =>
    IO.print topic.page
    return 0
  | .error .usage =>
    IO.eprint Topic.program.page
    return 2
  | .ok invocation => execute invocation
