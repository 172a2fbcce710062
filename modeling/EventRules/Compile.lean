import EventRules.Lowering.Program
import EventRules.Rule.Lexer
import EventRules.Rule.Parser.Program
import EventRules.Session
import EventRules.Text.Lines

/-!
Compiling the text of a rule.
-/

namespace EventRules
set_option autoImplicit false

inductive CompileError where
  | lexical (error : LexError)
  | grammar (error : ParseError)
  | typing (error : TypingError)
  | lowering (error : LoweringError)

namespace CompileError

/-- A typing error stays one wherever it is found. -/
def ofLowering : LoweringError → CompileError
  | .typing error => typing error
  | error => lowering error

def position? : CompileError → Option Position
  | lexical error => some error.position
  | grammar error => some error.position
  | typing error => some error.position
  | lowering error => error.position?

def message : CompileError → String
  | lexical error => s!"Lexical error: {error.message}"
  | grammar error => s!"Parse error: {error.message}"
  | typing error => error.message
  | lowering error => s!"Translation error: {error.message}"

/-- The message, and below it the line of the source with a mark under the place. -/
def render (source : String) (e : CompileError) : String :=
  let line? := e.position?.bind fun p => (Text.lines source.toList)[p.line - 1]?.map fun line => (p, line)
  match line? with
  | none => e.message
  | some (p, line) =>
    let mark := List.replicate (p.column - 1) ' '
    s!"{e.message}\n  {String.ofList line}\n  {String.ofList mark}^"

end CompileError

/-- A rule that has been compiled. -/
structure Rule where
  source : String
  entry : Code
  fragments : List Fragment
  constants : Keyed Value
  registry : Registry
  warnings : List Lowering.Warning

def parseSource (source : String) : Except CompileError Program := do
  let tokens ← (tokenize source).mapError .lexical
  (parseProgram tokens).mapError .grammar

/-- Of two constants under one name the later one counts. -/
def bindAll (constants : List (String × Value)) : Keyed Value :=
  constants.foldl (fun bound c => bound.put c.1 c.2) .empty

def compile (registry : Registry) (constants : List (String × Value)) (source : String) :
    Except CompileError Rule := do
  let p ← parseSource source
  let (entry, build) := (Lowering.program registry p).run ⟨bindAll constants, .empty⟩
  let entry ← entry.mapError .ofLowering
  return ⟨source, entry, build.output.fragments, build.constants, registry, build.output.warnings⟩

end EventRules
