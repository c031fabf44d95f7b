import RankN.Command
import RankN.Options
import RankN.Text

/-!
# The command line

The command line is read word by word. Options may stand anywhere; those of `run` are known wherever
`run` may still be meant. Names follow each other: once an option comes between, no more are taken.
After `--` no word is an option.

`Exit.ofCommandLine` is the whole program, apart from printing.
-/

namespace RankN

namespace Command

/-- How far a command line has been read. -/
inductive Place where
  /-- Before a command. -/
  | start
  /-- After `run`, before any names. -/
  | run
  /-- Among the names of examples. -/
  | naming (names : List String)
  /-- After the names of examples. -/
  | named (names : List String)
  /-- After `env`. -/
  | env
deriving DecidableEq

/-- A command line in the course of being read. -/
structure Reading where
  options : Options
  place : Place := .start
  /-- An option that waits for its value. -/
  awaiting : Option Flag := none
  /-- Whether no more options are read. -/
  literal : Bool := false
deriving DecidableEq

namespace Reading

/-- Whether a word can be a value: anything that does not look like an option. -/
def isValue (word : String) : Bool := word = "-" || word.toList.head? ≠ some '-'

/-- Read a word that is no option. -/
def positional? (r : Reading) (word : String) : Option Reading :=
  match r.place with
  | .start =>
    if word = "run" then some { r with place := .run }
    else if word = "env" then some { r with place := .env }
    else some { r with place := .naming [word] }
  | .run => some { r with place := .naming [word] }
  | .naming names => some { r with place := .naming (names ++ [word]) }
  | .named _ => none
  | .env => none

/-- An option interrupts the names. -/
def interrupt (r : Reading) : Reading :=
  match r.place with
  | .naming names => { r with place := .named names }
  | _ => r

/-- Whether an option is known here. -/
def knows (r : Reading) (flag : Flag) : Bool := flag.isGlobal || r.place ≠ .env

/-- Set an option to a value. -/
def set? (r : Reading) (flag : Flag) (value : String) : Option Reading :=
  (r.options.set? flag value).map fun options => { r with options }

/-- Read an option by its long name, with a value if one is attached. -/
def long? (r : Reading) (name : String) (value : Option String) : Option Reading := do
  let flag ← (Flag.ofLong? name).filter r.knows
  match value with
  | some value => r.set? flag value
  | none =>
    match flag with
    | .parallel => return { r with awaiting := some flag }
    | flag => return { r with options := ← r.options.mention? flag }

/-- Read a cluster of options by their short names. The rest of a cluster is the value of an option
that needs one. -/
def short? (r : Reading) : List Char → Option Reading
  | [] => some r
  | c :: cs => do
    match ← (Flag.ofShort? c).filter r.knows with
    | .parallel =>
      if cs.isEmpty then return { r with awaiting := some .parallel }
      else r.set? .parallel (String.ofList cs)
    | flag => short? { r with options := ← r.options.mention? flag } cs

/-- Read a word. -/
def word? (r : Reading) (word : String) : Option Reading :=
  match r.awaiting with
  | some flag =>
    if isValue word then { r with awaiting := none }.set? flag word else none
  | none =>
    if r.literal || isValue word then r.positional? word
    else if word = "--" then some { r.interrupt with literal := true }
    else match word.toList with
      | '-' :: '-' :: cs =>
        let name := String.ofList (cs.takeWhile (· ≠ '='))
        match cs.dropWhile (· ≠ '=') with
        | [] => r.interrupt.long? name none
        | _ :: value => r.interrupt.long? name (some (String.ofList value))
      | _ :: cs => r.interrupt.short? cs
      | [] => none

/-- The command that has been read. -/
def command? (r : Reading) : Option Command :=
  match r.awaiting, r.place with
  | some _, _ => none
  | none, .start => some (.run [])
  | none, .run => some (.run [])
  | none, .naming names => some (.run names)
  | none, .named names => some (.run names)
  | none, .env => some .env

end Reading

/-- Read a command line; `none` if it is rejected. -/
def parse? (args : List String) (vars : Variables) :
    Option (Command × Options) := do
  let options ← Options.ofVariables? vars
  let r ← args.foldlM Reading.word? { options }
  return (← r.command?, r.options)

end Command

/-! ## The program -/

/-- What the program leaves behind: its exit code and what it printed. -/
structure Exit where
  code : UInt8 := 0
  stdout : String := ""
  stderr : String := ""
deriving DecidableEq

namespace Exit

/-- The exit code for a command line that is rejected. -/
def rejected : UInt8 := 80

/-- What a failure is announced with. -/
def leader : String := "sysf: error: "

/-- The announcement of a failure. The further lines of its message stand under the first. -/
def announce (message : String) : String := leader ++ Text.hang leader.length message ++ "\n"

/-- The outcome of a command. -/
def ofOutput (o : Output) : Exit :=
  match o.failure with
  | none => { stdout := o.text }
  | some message =>
    { code := 1, stdout := o.text, stderr := announce message }

/-- Run the program on a command line. `terminal` tells whether colours can be shown. -/
def ofCommandLine (args : List String) (vars : Variables) (terminal : Bool) :
    Except Fault Exit := do
  match Command.parse? args vars with
  | none => return { code := rejected }
  | some (command, options) =>
    let palette := if terminal && !options.noColor then Palette.colored else .plain
    return ofOutput (← command.execute palette options.parallel)

end Exit

end RankN
