import EventRules.Check

/-!
The command line: `check RULE` with options. What a run prints and how it ends is calculated here from
the arguments and the standard input.
-/

namespace EventRules.CommandLine
set_option autoImplicit false

inductive Switch where
  | verbose
  | events
  | define
  | pretty
  | syntaxOnly
  | emit
  | help
  | version
deriving DecidableEq, Repr

namespace Switch

/-- Switches that stand before the command. -/
def global : List Switch := [verbose, help, version]

/-- Switches that stand behind `check`. -/
def ofCheck : List Switch := [verbose, events, define, pretty, syntaxOnly, emit, help]

def short? : Switch → Option Char
  | verbose => some 'v'
  | events => some 'e'
  | define => some 'D'
  | pretty => some 'p'
  | help => some 'h'
  | version => some 'V'
  | syntaxOnly | emit => none

def long : Switch → String
  | verbose => "verbose"
  | events => "events"
  | define => "define"
  | pretty => "pretty"
  | syntaxOnly => "syntax-only"
  | emit => "emit"
  | help => "help"
  | version => "version"

def takesValue : Switch → Bool
  | events | define => true
  | _ => false

def ofShort? (allowed : List Switch) (c : Char) : Option Switch :=
  allowed.find? fun s => s.short? == some c

def ofLong? (allowed : List Switch) (name : List Char) : Option Switch :=
  allowed.find? fun s => s.long.toList == name

end Switch

/-- A part of a command line. -/
inductive Part where
  | switch (s : Switch)
  | setting (s : Switch) (value : String)
  | operand (text : String)
deriving DecidableEq

/-- The parts of one argument, and a switch whose value is the next argument. -/
structure Reading where
  parts : List Part
  pending : Option Switch

/-- A switch with its name in full, and its value behind an equals sign. -/
def readLong (allowed : List Switch) (body : List Char) : Option Reading := do
  let s ← Switch.ofLong? allowed (body.takeWhile (· ≠ '='))
  match s.takesValue, body.dropWhile (· ≠ '=') with
  | false, [] => return ⟨[.switch s], none⟩
  | false, _ => none
  | true, [] => return ⟨[], some s⟩
  | true, _ :: value => return ⟨[.setting s (String.ofList value)], none⟩

/-- Switches of one letter each; what follows one that takes a value is the value. -/
def readCluster (allowed : List Switch) : List Char → Option Reading
  | [] => some ⟨[], none⟩
  | c :: cs => do
    let s ← Switch.ofShort? allowed c
    if s.takesValue then
      match cs with
      | [] => return ⟨[], some s⟩
      | '=' :: value => return ⟨[.setting s (String.ofList value)], none⟩
      | value => return ⟨[.setting s (String.ofList value)], none⟩
    else
      let others ← readCluster allowed cs
      return ⟨.switch s :: others.parts, others.pending⟩

/-- An argument before `--`. A hyphen alone is an operand. -/
def readArgument (allowed : List Switch) (text : String) : Option Reading :=
  match text.toList with
  | '-' :: '-' :: body => readLong allowed body
  | '-' :: c :: cs => readCluster allowed (c :: cs)
  | _ => some ⟨[.operand text], none⟩

def looksLikeSwitch (text : String) : Bool := text.length != 1 && text.toList.head? == some '-'

def readParts (allowed : List Switch) (pending : Option Switch) : List String → Option (List Part)
  | [] => if pending.isNone then some [] else none
  | text :: rest =>
    match pending with
    | some s =>
      if looksLikeSwitch text then none
      else (readParts allowed none rest).map fun parts => .setting s text :: parts
    | none =>
      if text = "--" then some (rest.map Part.operand)
      else do
        let reading ← readArgument allowed text
        let parts ← readParts allowed reading.pending rest
        return reading.parts ++ parts

/-- What `check` is asked to do. -/
structure CheckCommand where
  rule : String
  events : Option String
  definitions : List String
  pretty : Bool
  syntaxOnly : Bool
  emit : Bool
deriving DecidableEq

inductive Command where
  | check (command : CheckCommand)
  | help
  | version
deriving DecidableEq

def settings (s : Switch) (parts : List Part) : List String :=
  parts.filterMap fun part =>
    match part with
    | .setting t value => if t = s then some value else none
    | _ => none

def operands (parts : List Part) : List String :=
  parts.filterMap fun part =>
    match part with
    | .operand text => some text
    | _ => none

def isGiven (s : Switch) (parts : List Part) : Bool := parts.contains (.switch s)

/-- Switches that may be given more than once. -/
def isRepeatable (s : Switch) : Bool := s == .verbose || s == .define

def occurrences (s : Switch) (parts : List Part) : Nat :=
  parts.count (.switch s) + (settings s parts).length

def checkCommand? (args : List String) : Option Command := do
  let parts ← readParts Switch.ofCheck none args
  if isGiven .help parts then return .help
  if Switch.ofCheck.any fun s => !isRepeatable s && 1 < occurrences s parts then none
  match operands parts with
  | [rule] =>
    return .check
      { rule
        events := (settings .events parts).head?
        definitions := settings .define parts
        pretty := isGiven .pretty parts
        syntaxOnly := isGiven .syntaxOnly parts
        emit := isGiven .emit parts }
  | _ => none

/-- The command of an argument list, if it is a valid one. -/
def command? : List String → Option Command
  | [] => none
  | "check" :: args => checkCommand? args
  | "help" :: args => if args = [] ∨ args = ["check"] ∨ args = ["help"] then some .help else none
  | text :: args => do
    let reading ← if text = "--" then none else readArgument Switch.global text
    if reading.parts.contains (.switch .help) then return .help
    if reading.parts.contains (.switch .version) then return .version
    if (operands reading.parts).isEmpty then command? args else none

/-- What a run prints, and its exit code. -/
structure Outcome where
  exit : Nat
  stdout : String
  stderr : String
deriving DecidableEq

def usage : String :=
  "Usage: check RULE [-e EVENTS] [-D NAME=VALUE]... [-p] [--syntax-only] [--emit] [-v]...\n"

def reportText (pretty : Bool) : CheckReport → String
  | .parsed => "Syntax is valid\n"
  | .compiled entry fragments =>
    String.join ((entry.shown :: fragments.map Fragment.shown).map fun line => line ++ "\n")
  | .checked events =>
    let json := checkedJson events
    (if pretty then json.pretty else json.compact) ++ "\n"

/-- Events are taken from the standard input, if it is not a terminal and the command needs some. -/
def CheckCommand.request (c : CheckCommand) (stdin : Option String) : Except CheckError CheckRequest := do
  let definitions ← (c.definitions.mapM readDefinition).mapError .input
  return ⟨c.rule, c.events <|> stdin, definitions, c.syntaxOnly, c.emit⟩

def CheckCommand.run (c : CheckCommand) (stdin : Option String) : Outcome :=
  match (c.request stdin).bind check with
  | .ok report => ⟨0, reportText c.pretty report, ""⟩
  | .error e => ⟨1, "", e.message ++ "\n"⟩

/-- Whether a run reads the standard input. -/
def Command.needsInput : Command → Bool
  | .check c => c.events.isNone && !c.syntaxOnly && !c.emit
  | _ => false

/-- What a run prints. Arguments that form no command end it with exit code 2. -/
def run (args : List String) (stdin : Option String) : Outcome :=
  match command? args with
  | none => ⟨2, "", usage⟩
  | some .help => ⟨0, usage, ""⟩
  | some .version => ⟨0, "rhythmix 0.1.0\n", ""⟩
  | some (.check c) => c.run stdin

end EventRules.CommandLine
