import RankN.Numeral
import RankN.Variables

/-!
# Options

The options of the command line and their values. An option is set by a value, or merely mentioned
if it needs none; a variable of the process environment stands for an option that is not given.
-/

namespace RankN

/-- The options of the command line. -/
inductive Flag where
  | parallel
  | trace
  | verbose
  | noColor
deriving DecidableEq

/-- The values of the options. -/
structure Options where
  /-- How many examples are inferred at a time. -/
  parallel : Int := 4
  trace : Bool := false
  verbose : Int := 0
  noColor : Bool := false
deriving DecidableEq

namespace Flag

/-- The option with a long name. -/
def ofLong? : String → Option Flag
  | "parallel" => some .parallel
  | "trace" => some .trace
  | "verbose" => some .verbose
  | "no-color" => some .noColor
  | _ => none

/-- The option with a short name. -/
def ofShort? : Char → Option Flag
  | 'p' => some .parallel
  | 'v' => some .verbose
  | _ => none

/-- Whether an option is for every command. -/
def isGlobal : Flag → Bool
  | .verbose | .noColor => true
  | .parallel | .trace => false

end Flag

namespace Options

/-- The truth value of a word. -/
def bool? (s : String) : Option Bool :=
  let s := s.toLower
  if s = "true" ∨ s = "1" ∨ s = "yes" then some true
  else if s = "false" ∨ s = "0" ∨ s = "no" then some false
  else none

/-- Set an option to a value. -/
def set? (o : Options) (flag : Flag) (value : String) : Option Options :=
  match flag with
  | .parallel => (Numeral.signed? Numeral.unsigned? value).map fun n => { o with parallel := n }
  | .trace => (bool? value).map fun b => { o with trace := b }
  | .verbose => (Numeral.signed? Numeral.decimal? value).map fun n => { o with verbose := n }
  | .noColor => (bool? value).map fun b => { o with noColor := b }

/-- Mention an option without a value; one that needs a value is refused. -/
def mention? (o : Options) : Flag → Option Options
  | .parallel => none
  | .trace => some { o with trace := true }
  | .verbose => some { o with verbose := o.verbose + 1 }
  | .noColor => some { o with noColor := true }

/-- The options as set by variables of the process environment. -/
def ofVariables? (vars : Variables) : Option Options := do
  let o ← withVar {} .parallel "SYSF_PARALLEL"
  let o ← withVar o .trace "SYSF_TRACE"
  withVar o .verbose "SYSF_VERBOSE"
where
  /-- Set an option from a variable, if there is one. -/
  withVar (o : Options) (flag : Flag) (name : String) : Option Options :=
    match vars.get? name with
    | some value => o.set? flag value
    | none => some o

end Options

end RankN
