import Pseudocode.CommandLine.Arguments
import Pseudocode.Diagnostic.Json
import Pseudocode.Diagnostic.Render
import Pseudocode.Interpreter
import Pseudocode.Program.Outline

/-!
# One run of the command

The arguments say what to read; what was read then settles everything that the command prints.
Reading itself is left to whoever runs the command, so that the rest is a function.
-/

namespace Pseudocode.CommandLine

/-- Where a command takes its text from. -/
inductive Input where
  | file (path : String)
  | inline (code : String)
  | standardInput
  /-- The command needs no text. -/
  | nothing
deriving DecidableEq

/-- Why a file could not be read. -/
inductive ReadFailure where
  | notFound
  | notDirectory
  | isDirectory
  | denied
  | other (message : String)
deriving DecidableEq

/-- How a report words a failure to read. -/
def ReadFailure.message : ReadFailure → String
  | notFound => "No such file or directory (os error 2)"
  | notDirectory => "Not a directory (os error 20)"
  | isDirectory => "Is a directory (os error 21)"
  | denied => "Permission denied (os error 13)"
  | other message => message

/-- What a run of the command leaves behind. -/
structure Reply where
  status : Nat
  output : String
  errors : String
deriving DecidableEq

/-- The text that the arguments ask for. -/
def Arguments.input (a : Arguments) : Input :=
  match a.command with
  | some (.complete _) => .nothing
  | some (.suggest file _ _) => .file file
  | none =>
    match a.file, a.eval with
    | some path, _ => .file path
    | none, some code => .inline code
    | none, none => .standardInput

/-- How diagnostics call the text. -/
def Input.name : Input → String
  | file path => path
  | inline _ => "<eval>"
  | standardInput | nothing => "<stdin>"

/-- The text, once it has been read. It has to be UTF-8. -/
def Input.decode (input : Input) (contents : Except ReadFailure ByteArray) :
    Except String String :=
  let subject := match input with
    | file path => path
    | _ => "from stdin"
  match input, contents with
  | .inline code, _ => .ok code
  | .nothing, _ => .ok ""
  | _, .error failure => .error ("Failed to read " ++ subject ++ ": " ++ failure.message)
  | _, .ok bytes =>
    match String.fromUTF8? bytes with
    | some text => .ok text
    | none => .error ("Failed to read " ++ subject ++ ": stream did not contain valid UTF-8")

/-- Each text on a line of its own. -/
def unlines (lines : List String) : String := String.join (lines.map fun line => line ++ "\n")

/-- The report on a program in error. -/
def report (a : Arguments) (colored : Bool) (source name : String) (e : Error) : String :=
  match a.errorFormat with
  | .human => Diagnostic.renderAll source name [e.diagnostic] colored
  | .json => (e.diagnostic.summary source).json ++ "\n"

/-- A reply that prints lines and, if the program is in error, a report. -/
def conclude (a : Arguments) (colored : Bool) (source name : String) (lines : List String) :
    Option Halt → Reply
  | none => ⟨0, unlines lines, ""⟩
  | some (.error e) => ⟨1, unlines lines, report a colored source name e⟩
  | some .outOfFuel => ⟨1, unlines lines, "the program did not come to an end\n"⟩
  | some (.fault _) => ⟨1, unlines lines, "the program could not be run\n"⟩

/-- What went wrong, if anything. -/
def haltOf? {α : Type} : Except Halt α → Option Halt
  | .ok _ => none
  | .error halt => some halt

/-- Dumps or runs a program. -/
def perform (a : Arguments) (colored : Bool) (fuel : Nat) (source name : String) : Reply :=
  let conclude := conclude a colored source name
  match a.dump with
  | some .tokens =>
    match lexSource source with
    | .ok tokens => conclude (tokens.map Token.row) none
    | .error halt => conclude [] (some halt)
  | some .ast =>
    match parseSource source with
    | .ok program => conclude [(Block.outline program).render] none
    | .error halt => conclude [] (some halt)
  | none =>
    let outcome := run fuel source
    conclude outcome.output.toList (haltOf? outcome.result)

/-- A suggestion on one line. -/
def suggestionRow (s : Suggestion) : String :=
  s.key ++ "\t" ++ s.display ++ "\t" ++ Number.renderFixed 3 s.score

/-- What the command does with the text it was given. -/
def reply (a : Arguments) (colored : Bool) (fuel : Nat)
    (contents : Except ReadFailure ByteArray) : Reply :=
  match a.input.decode contents with
  | .error message =>
    ⟨1, "", (if colored then Diagnostic.Ink.redBold.paint message else message) ++ "\n"⟩
  | .ok source =>
    match a.command with
    | some (.complete _) => ⟨0, "", ""⟩
    | some (.suggest _ caret limit) =>
      ⟨0, unlines ((Suggestion.suggest source caret limit).map suggestionRow), ""⟩
    | none => perform a colored fuel source a.input.name

/-! ## Arguments that ask for nothing to be run -/

/-- The answer to a question for the version. -/
def versionText : String := "cspi 0.1.0\n"

/-- One line on how the command is called. -/
def usageText : String := "Usage: cspi [OPTIONS] [FILE] [COMMAND]\n"

/-- Help and the version are printed; anything else is a misuse. -/
def UsageError.reply : UsageError → Reply
  | displayHelp => ⟨0, usageText, ""⟩
  | displayVersion => ⟨0, versionText, ""⟩
  | _ => ⟨2, "", usageText⟩

end Pseudocode.CommandLine
