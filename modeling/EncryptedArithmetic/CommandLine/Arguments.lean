import EncryptedArithmetic.CommandLine.Help
import EncryptedArithmetic.Decimal.Reading

/-!
# Arguments

The command line is `[--config FILE] eval EXPRESSION | add A B | repl`. The option may stand before
or behind the command; where it stands on both sides the one behind the command counts, and twice
on one side is refused. Words that begin with a dash are options, except for the numbers of `add`
and behind a `--`. Help can be asked for by an option on either side and by the command `help`.
-/

namespace EncryptedArithmetic.CommandLine

/-- What the program is asked to do. -/
inductive Command where
  | eval (text : String)
  | add (a b : Float)
  | repl

/-- A command with the file of its configuration. -/
structure Invocation where
  config? : Option String
  command : Command

/-- Why arguments ask for nothing to be evaluated. -/
inductive Refusal where
  /-- They ask for a page of the help. -/
  | help (topic : Topic)
  /-- They are no command. -/
  | usage
deriving DecidableEq, Repr

/-- What a word is. -/
inductive Word where
  /-- A plain word. -/
  | value (text : String)
  /-- The option for the configuration, with a value behind an equals sign. -/
  | config (attached : Option String)
  /-- The option for help, which takes no value. -/
  | help (attached : Bool)
  /-- The mark behind which all words are plain. -/
  | escape
  /-- A word that begins with a dash and is no option. -/
  | dashed (text : String)

/-- Tells what a word is. -/
def Word.classify (text : String) : Word :=
  match text.toList with
  | ['-', '-'] => .escape
  | '-' :: '-' :: name =>
    if name = "config".toList then .config none
    else if name = "help".toList then .help false
    else if name.take 7 = "config=".toList then .config (some (String.ofList (name.drop 7)))
    else if name.take 5 = "help=".toList then .help true
    else .dashed text
  | '-' :: c :: flags => if (c :: flags).all (· == 'h') then .help false else .dashed text
  | _ => .value text

/-- The file of the option, which must not be empty or given before. -/
def takeFile (known : Option String) (file : String) : Except Refusal (Option String) :=
  if known.isSome || file.isEmpty then .error .usage else .ok (some file)

/-- What an unknown option asks for: help where the first of its flags does. -/
def Word.refusal (topic : Topic) (text : String) : Refusal :=
  if text.toList.take 2 = ['-', 'h'] then .help topic else .usage

/-- The plain words that a command takes. -/
structure Operands (α : Type) where
  /-- What help is about here. -/
  topic : Topic
  /-- How many there are. -/
  count : Nat
  /-- Whether words that begin with a dash can be among them. -/
  dashes : Bool
  /-- What a plain word stands for. -/
  read : String → Option α

namespace Operands

variable {α : Type}

/-- Takes one more plain word, where one is missing and it can be read. -/
def take (wanted : Operands α) (known : List α) (text : String) : Except Refusal (List α) :=
  match wanted.read text with
  | some value => if known.length < wanted.count then .ok (known ++ [value]) else .error .usage
  | none => .error .usage

/-- Whether an unknown option is a plain word here. -/
def takesDashed (wanted : Operands α) (known : List α) : Bool :=
  wanted.dashes && known.length < wanted.count

/-- The plain words and the configuration behind a command. -/
def parse (wanted : Operands α) (known : List α) (file : Option String) :
    List String → Except Refusal (List α × Option String)
  | [] => if known.length = wanted.count then .ok (known, file) else .error .usage
  | text :: rest =>
    match Word.classify text with
    | .value _ => do parse wanted (← wanted.take known text) file rest
    | .config (some path) => do parse wanted known (← takeFile file path) rest
    | .config none =>
      match rest with
      | path :: rest =>
        match Word.classify path, wanted.takesDashed known with
        | .value _, _ | .dashed _, true => do parse wanted known (← takeFile file path) rest
        | _, _ => .error .usage
      | [] => .error .usage
    | .help attached => .error (if attached then .usage else .help wanted.topic)
    | .escape => do
      let all ← rest.foldlM wanted.take known
      if all.length = wanted.count then return (all, file) else .error .usage
    | .dashed _ =>
      if wanted.takesDashed known then do parse wanted (← wanted.take known text) file rest
      else .error (Word.refusal wanted.topic text)

end Operands

/-- The command with a name and the words behind it. -/
def command (name : String) (rest : List String) : Except Refusal (Command × Option String) := do
  match Topic.ofName? name with
  | some .eval =>
    match ← Operands.parse ⟨.eval, 1, false, some⟩ [] none rest with
    | ([text], file) => return (.eval text, file)
    | _ => .error .usage
  | some .add =>
    match ← Operands.parse ⟨.add, 2, true, Decimal.parse?⟩ [] none rest with
    | ([a, b], file) => return (.add a b, file)
    | _ => .error .usage
  | some .repl =>
    return (.repl, (← Operands.parse ⟨.repl, 0, false, some⟩ [] none rest).2)
  | some .help =>
    match rest with
    | [] => .error (.help .program)
    | [name] => .error ((Topic.ofName? name).elim .usage .help)
    | _ => .error .usage
  | _ => .error .usage

/-- Takes the file of the last option, where there is one that has not been taken. -/
def takeLast (known last : Option String) : Except Refusal (Option String) :=
  last.elim (.ok known) (takeFile known)

/-- What the arguments ask for; `known` is the configuration so far. The file that was named in a
word of its own is the `last` one until it is taken, which comes after the words of a command. -/
def parseFrom (known last : Option String) : List String → Except Refusal Invocation
  | [] => .error .usage
  | text :: rest =>
    match Word.classify text with
    | .value name => do
      let (asked, inner) ← command name rest
      return ⟨inner.or (← takeLast known last), asked⟩
    | .config (some path) => do parseFrom (← takeFile (← takeLast known last) path) none rest
    | .config none => do
      let known ← takeLast known last
      match rest with
      | path :: rest =>
        match Word.classify path with
        | .value _ => parseFrom known (some path) rest
        | _ => .error .usage
      | [] => .error .usage
    | .help false => do
      let _ ← takeLast known last
      .error (.help .program)
    | .help true | .escape => .error .usage
    | .dashed _ => do
      let _ ← takeLast known last
      .error (Word.refusal .program text)

/-- What the arguments ask for. -/
def parse (arguments : List String) : Except Refusal Invocation :=
  parseFrom none none arguments

end EncryptedArithmetic.CommandLine
