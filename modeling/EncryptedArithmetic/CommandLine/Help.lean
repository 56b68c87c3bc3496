/-!
# Help

The pages that the program shows when it is asked for help: one on the program and one on each of
its commands. A page says what is done, how it is asked for, and lists the words that can be given
with a line on each.
-/

namespace EncryptedArithmetic.CommandLine

/-- What a page of the help is about. -/
inductive Topic where
  | program
  | eval
  | add
  | repl
  | help
deriving DecidableEq, Repr

namespace Topic

/-- The name under which the program is called. -/
def programName : String := "he-calc"

/-- The commands in the order in which they are listed. -/
def commands : List Topic := [eval, add, repl, help]

/-- The word that asks for a command, empty for the program itself. -/
def name : Topic → String
  | program => ""
  | eval => "eval"
  | add => "add"
  | repl => "repl"
  | help => "help"

/-- The command with a name. -/
def ofName? (name : String) : Option Topic :=
  commands.find? (·.name == name)

/-- What is done, in one line. -/
def about : Topic → String
  | program => "Evaluate arithmetic on encrypted numbers"
  | eval => "Evaluate one expression, e.g. \"(2 + 3) * 4\""
  | add => "Encrypt two numbers, report ciphertext sizes and add them"
  | repl => "Read one expression per line from stdin"
  | help => "Print this message or the help of the given subcommand(s)"

/-- The plain words behind the command, each with what is said about it. -/
def operands : Topic → List (String × String)
  | program => []
  | eval => [("<EXPRESSION>", "")]
  | add => [("<A>", ""), ("<B>", "")]
  | repl => []
  | help => [("[COMMAND]...", "Print help for the subcommand(s)")]

/-- The options, each with what is said about it. -/
def options : Topic → List (String × String)
  | help => []
  | _ => [
    ("    --config <CONFIG>",
      "JSON file with context parameters, zero tolerance and parser limits"),
    ("-h, --help", "Print help")]

/-- How the command is called. -/
def synopsis (t : Topic) : String :=
  let words := [programName, t.name, if t.options.isEmpty then "" else "[OPTIONS]",
    if t = program then "<COMMAND>" else ""] ++ t.operands.map Prod.fst
  " ".intercalate (words.filter (! ·.isEmpty))

/-- A heading with an entry on each of its lines, all texts beginning in one column. Nothing is
written where there are no entries. -/
def listing? (heading : String) (entries : List (String × String)) : Option String :=
  if entries.isEmpty then none
  else
    let width := (entries.map (·.1.length)).foldl max 0
    let line (entry : String × String) : String :=
      "\n  " ++ entry.1.pushn ' ' (width + 2 - entry.1.length) ++ entry.2
    some (heading ++ ":" ++ String.join (entries.map line) ++ "\n")

/-- The page on a topic. -/
def page (t : Topic) : String :=
  let listed := if t = program then commands.map fun c => (c.name, c.about) else []
  let listings := [listing? "Commands" listed, listing? "Arguments" t.operands,
    listing? "Options" t.options]
  "\n".intercalate ((t.about ++ "\n") :: ("Usage: " ++ t.synopsis ++ "\n") ::
    listings.filterMap id)

end Topic

end EncryptedArithmetic.CommandLine
