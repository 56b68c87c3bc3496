import EncryptedArithmetic.CommandLine.Arguments
import EncryptedArithmetic.Request.Calculator
import EncryptedArithmetic.Text.Blank

/-!
# Running a command

What a command prints and whether it succeeded. The interactive command evaluates one line at a time
and prints a prompt in front of each.
-/

namespace EncryptedArithmetic.CommandLine

/-- What is printed, and whether everything so far succeeded. -/
structure Printed where
  out : String := ""
  err : String := ""
  ok : Bool := true

namespace Printed

/-- Prints behind what is there. -/
def append (p q : Printed) : Printed :=
  ⟨p.out ++ q.out, p.err ++ q.err, p.ok && q.ok⟩

instance : Append Printed := ⟨append⟩

/-- Prints an outcome: a value to the output, a failure to the errors. -/
def ofOutcome (o : Outcome) : Printed :=
  if o.succeeded then { out := o.render ++ "\n" }
  else { err := "error: " ++ o.render ++ "\n", ok := false }

/-- Prints the sizes of two encrypted numbers and the outcome of their sum. -/
def ofReport (a b : Float) (r : SumReport) : Printed :=
  let size (x : Float) (n : Nat) : Printed :=
    { out := s!"Encrypted {Decimal.plain x}: {n} bytes\n" }
  match r.sizes? with
  | some (m, n) => size a m ++ size b n ++ ofOutcome r.outcome
  | none => ofOutcome r.outcome

end Printed

/-- What stands in front of each line. -/
def prompt : String := "> "

variable {σ : Type}

/-- What one line of the interactive command does: nothing more is read behind `exit` and `quit`. -/
def line (S : Sampler σ) (c : Calculator σ) (text : String) :
    Option (Except Fault Printed × Calculator σ) :=
  let text := Text.trim text
  if text = "exit" ∨ text = "quit" then none
  else if text.isEmpty then some (.ok {}, c)
  else
    let (outcome, c) := c.evaluate S text
    some (outcome.map Printed.ofOutcome, c)

/-- Evaluates lines until there are no more, each of them followed by the next prompt. -/
def session (S : Sampler σ) (c : Calculator σ) (printed : Printed) :
    List String → Except Fault Printed
  | [] => .ok (printed ++ { out := "\n" })
  | text :: rest =>
    match line S c text with
    | none => .ok (printed ++ { out := "\n" })
    | some (.error f, _) => .error f
    | some (.ok answer, c) => session S c (printed ++ answer ++ { out := prompt }) rest

/-- Runs a command on the given lines of input. -/
def run (S : Sampler σ) (c : Calculator σ) (command : Command) (input : List String) :
    Except Fault Printed :=
  match command with
  | .eval text => (c.evaluate S text).1.map Printed.ofOutcome
  | .add a b => (c.add S a b).1.map (Printed.ofReport a b)
  | .repl => session S c { out := prompt } input

/-- The exit status of a command. -/
def exitCode (p : Printed) : UInt32 :=
  if p.ok then 0 else 1

end EncryptedArithmetic.CommandLine
