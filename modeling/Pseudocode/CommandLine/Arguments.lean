import Pseudocode.CommandLine.Choice
import Pseudocode.CommandLine.Resemblance
import Pseudocode.Number.Decimal
import Pseudocode.Suggestion

/-!
# Command line arguments

The command line is read word by word. An option's value may be attached to it (`--color=never`,
`-n5`) or be the next word, if that does not look like an option itself. A value is checked when
the word behind it has been recognised, so a word that nothing can be made of is reported before a
bad value in front of it. Behind `--` all words are plain.

The names of the two commands, and `help`, are recognised wherever a plain word may stand. All
words behind such a name belong to that command, and its errors come before those of the words in
front of it.
-/

namespace Pseudocode.CommandLine

/-- Why the arguments do not make a request to run something. -/
inductive UsageError where
  | unknownArgument
  | argumentConflict
  | valueValidation
  | invalidValue
  | tooManyValues
  | missingRequiredArgument
  | invalidCommand
  | displayHelp
  | displayVersion
deriving DecidableEq

/-- The shells that completions are made for. -/
inductive Shell where
  | bash
  | elvish
  | fish
  | powershell
  | zsh
deriving DecidableEq

namespace Shell

/-- In alphabetical order. -/
def all : List Shell := [bash, elvish, fish, powershell, zsh]

/-- The word that names a shell. -/
def name : Shell → String
  | bash => "bash"
  | elvish => "elvish"
  | fish => "fish"
  | powershell => "powershell"
  | zsh => "zsh"

/-- The shell of a name. Letter case counts. -/
def ofName? (text : String) : Option Shell := all.find? fun shell => shell.name == text

end Shell

/-- What may be asked for in place of running a program. -/
inductive Command where
  | complete (shell : Shell)
  | suggest (file : String) (caret limit : Nat)
deriving DecidableEq

/-- The request that a command line makes. -/
structure Arguments where
  file : Option String
  eval : Option String
  dump : Option DumpStage
  color : ColorChoice
  errorFormat : ErrorFormat
  verbose : Bool
  command : Option Command
deriving DecidableEq

/-- The least weight of messages that are logged. -/
def Arguments.logFilter (a : Arguments) : String := if a.verbose then "debug" else "warn"

/-! ## What may be given -/

/-- Everything that an argument can set or ask for. -/
inductive Setting where
  | file | shell | eval | dump | color | errorFormat | verbose | caret | limit | help | version
deriving DecidableEq

/-- Does a word have to follow the setting, or be attached to it? -/
def Setting.takesValue : Setting → Bool
  | verbose | help | version => false
  | _ => true

/-- The part of the command line that a word belongs to. -/
inductive Level where
  | main
  | complete
  | suggest
deriving DecidableEq

namespace Level

/-- Settings by their long name. -/
def long? : Level → String → Option Setting
  | main, "eval" => some .eval
  | main, "dump" => some .dump
  | main, "color" => some .color
  | main, "error-format" => some .errorFormat
  | main, "verbose" => some .verbose
  | main, "version" => some .version
  | suggest, "caret" => some .caret
  | suggest, "limit" => some .limit
  | _, "help" => some .help
  | _, _ => none

/-- Settings by their letter. -/
def short? : Level → Char → Option Setting
  | main, 'e' => some .eval
  | main, 'v' => some .verbose
  | main, 'V' => some .version
  | suggest, 'n' => some .limit
  | _, 'h' => some .help
  | _, _ => none

/-- What a plain word sets. -/
def plain : Level → Setting
  | complete => .shell
  | main | suggest => .file

/-- The names that open a command. -/
def commands : Level → List String
  | main => ["complete", "suggest", "help"]
  | complete | suggest => []

end Level

/-! ## What has been given -/

/-- The values read so far. -/
structure Given where
  file : Option String := none
  shell : Option Shell := none
  eval : Option String := none
  dump : Option DumpStage := none
  color : Option ColorChoice := none
  errorFormat : Option ErrorFormat := none
  verbose : Bool := false
  caret : Option Nat := none
  limit : Option Nat := none

/-- A count in decimal digits, with an optional plus sign, below `2 ^ 64`. -/
def readCount? (text : String) : Option Nat :=
  let digits := match text.toList with
    | '+' :: digits => digits
    | digits => digits
  if digits.isEmpty || !digits.all Char.isDigit then none
  else
    let count := Number.ofDigits digits
    if count < Nat.pow 2 64 then some count else none

/-- Sets what must not have been set before. -/
def once {α : Type} (before : Option α) (value : Except UsageError α) :
    Except UsageError (Option α) :=
  match before with
  | some _ => .error .argumentConflict
  | none => value.map some

/-- A choice, or the report that a value is not one. -/
def choose {α : Type} (choice : Except String α) : Except UsageError α :=
  choice.mapError fun _ => .valueValidation

/-- Takes the value of a setting, if it is a fit one and the first. -/
def Given.set (g : Given) (setting : Setting) (value : String) : Except UsageError Given :=
  match setting with
  | .file => do
    let file ← once g.file (if value.isEmpty then .error .invalidValue else .ok value)
    pure { g with file }
  | .shell => do
    let shell ← once g.shell ((Shell.ofName? value).elim (.error .invalidValue) .ok)
    pure { g with shell }
  | .eval => do
    let eval ← once g.eval (.ok value)
    pure { g with eval }
  | .dump => do
    let dump ← once g.dump (choose (DumpStage.ofText value))
    pure { g with dump }
  | .color => do
    let color ← once g.color (choose (ColorChoice.ofText value))
    pure { g with color }
  | .errorFormat => do
    let errorFormat ← once g.errorFormat (choose (ErrorFormat.ofText value))
    pure { g with errorFormat }
  | .caret => do
    let caret ← once g.caret ((readCount? value).elim (.error .valueValidation) .ok)
    pure { g with caret }
  | .limit => do
    let limit ← once g.limit ((readCount? value).elim (.error .valueValidation) .ok)
    pure { g with limit }
  | .verbose | .help | .version => pure g

/-- A setting that takes no value. -/
def Given.raise (g : Given) : Setting → Except UsageError Given
  | .verbose => if g.verbose then .error .argumentConflict else .ok { g with verbose := true }
  | .help => .error .displayHelp
  | .version => .error .displayVersion
  | _ => .ok g

/-! ## Reading words -/

/-- How far the words have been read: what is settled, and the last setting, which may still wait
for its value. -/
structure Reading where
  given : Given
  pending : Option (Setting × Option String)
  plainUsed : Bool

namespace Reading

/-- No word has been read. -/
def start : Reading := ⟨{}, none, false⟩

/-- Checks and keeps the value of the last setting. -/
def settle (r : Reading) : Except UsageError Reading :=
  match r.pending with
  | none => .ok r
  | some (_, none) => .error .invalidValue
  | some (setting, some value) => do
    let given ← r.given.set setting value
    pure { r with given, pending := none }

/-- Does the last setting wait for its value? -/
def awaits (r : Reading) : Option Setting :=
  match r.pending with
  | some (setting, none) => some setting
  | _ => none

/-- A setting that takes a value, with the value that is attached to it. -/
def option (r : Reading) (setting : Setting) (attached : Option String) :
    Except UsageError Reading := do
  let r ← r.settle
  match attached with
  | some value => do
    let given ← r.given.set setting value
    pure { r with given }
  | none => pure { r with pending := some (setting, none) }

/-- A setting that takes no value settles what stands before it. -/
def flag (r : Reading) (setting : Setting) : Except UsageError Reading := do
  let r ← r.settle
  let given ← r.given.raise setting
  pure { r with given }

/-- A long option, without the two dashes. -/
def long (level : Level) (r : Reading) (body : List Char) : Except UsageError Reading :=
  let name := body.takeWhile (· != '=')
  let attached := match body.drop name.length with
    | _ :: value => some (String.ofList value)
    | [] => none
  match level.long? (String.ofList name) with
  | none => .error .unknownArgument
  | some setting =>
    if setting.takesValue then r.option setting attached
    else if attached.isSome then .error .tooManyValues
    else r.flag setting

/-- Letters behind a dash. What follows the letter of an option is its value. -/
def short (level : Level) (r : Reading) : List Char → Except UsageError Reading
  | [] => .ok r
  | c :: rest =>
    match level.short? c with
    | none => .error .unknownArgument
    | some setting =>
      if setting.takesValue then
        match rest with
        | [] => r.option setting none
        | '=' :: value => r.option setting (some (String.ofList value))
        | value => r.option setting (some (String.ofList value))
      else do
        let r ← r.flag setting
        r.short level rest

/-- The report on a plain word for which there is no room. It may be a command misspelt. -/
def surplus (level : Level) (word : String) : UsageError :=
  if !level.commands.contains word && level.commands.any (resembles word) then .invalidCommand
  else .unknownArgument

/-- A word that is no option. Each level has room for one. -/
def plainWord (level : Level) (r : Reading) (word : String) : Except UsageError Reading :=
  if r.plainUsed then .error (surplus level word)
  else do
    let r ← r.settle
    pure { r with pending := some (level.plain, some word), plainUsed := true }

/-- A word in front of `--`. -/
def word (level : Level) (r : Reading) (word : String) : Except UsageError Reading :=
  match word.toList with
  | '-' :: '-' :: body => r.long level body
  | '-' :: c :: rest => r.short level (c :: rest)
  | _ =>
    match r.awaits with
    | some setting => .ok { r with pending := some (setting, some word) }
    | none => r.plainWord level word

/-- Words behind `--`. -/
def plainWords (level : Level) (r : Reading) : List String → Except UsageError Reading
  | [] => .ok r
  | word :: rest => do
    let r ← r.plainWord level word
    r.plainWords level rest

/-- Reads words up to the name of a command. Answers that name with the words behind it. -/
def words (level : Level) (r : Reading) :
    List String → Except UsageError (Reading × Option (String × List String))
  | [] => .ok (r, none)
  | word :: rest =>
    if r.awaits.isNone && level.commands.contains word then .ok (r, some (word, rest))
    else if word == "--" then do
      let r ← r.plainWords level rest
      pure (r, none)
    else do
      let r ← r.word level word
      r.words level rest

end Reading

/-! ## The whole command line -/

/-- The words of a command, settled. -/
def readLevel (level : Level) (words : List String) : Except UsageError Given := do
  let (r, _) ← Reading.start.words level words
  let r ← r.settle
  pure r.given

/-- The command that makes completions needs its shell. -/
def readComplete (words : List String) : Except UsageError Command := do
  let given ← readLevel .complete words
  match given.shell with
  | some shell => pure (.complete shell)
  | none => throw .missingRequiredArgument

/-- The command that makes suggestions needs a file and a caret. -/
def readSuggest (words : List String) : Except UsageError Command := do
  let given ← readLevel .suggest words
  match given.file, given.caret with
  | some file, some caret => pure (.suggest file caret (given.limit.getD Suggestion.defaultLimit))
  | _, _ => throw .missingRequiredArgument

/-- Help on everything, or on one command. -/
def readHelp : List String → UsageError
  | [] => .displayHelp
  | [name] => if Level.main.commands.contains name then .displayHelp else .invalidCommand
  | _ => .invalidCommand

/-- The command of a name, from the words behind it. Any other name asks for help. -/
def readCommand (name : String) (words : List String) : Except UsageError Command :=
  if name == "complete" then readComplete words
  else if name == "suggest" then readSuggest words
  else .error (readHelp words)

/-- Reads the words of a command line. A program comes from a file or from an option, but not from
both. -/
def Arguments.read (words : List String) : Except UsageError Arguments := do
  let (r, found) ← Reading.start.words .main words
  let command ← match found with
    | none => pure none
    | some (name, rest) => some <$> readCommand name rest
  let r ← r.settle
  let given := r.given
  if given.file.isSome && given.eval.isSome then throw .argumentConflict
  pure {
    file := given.file
    eval := given.eval
    dump := given.dump
    color := given.color.getD .auto
    errorFormat := given.errorFormat.getD .human
    verbose := given.verbose
    command }

end Pseudocode.CommandLine
