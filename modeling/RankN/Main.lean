import RankN.CommandLine

/-!
# The program

Reads the command line and the process environment, and prints what the library answers.
-/

namespace RankN

/-- The variables of the process environment that the program knows. -/
def knownVariables : List String := ["SYSF_PARALLEL", "SYSF_TRACE", "SYSF_VERBOSE"]

/-- Whether colours can be shown. -/
def showsColors : BaseIO Bool := do
  let noColor ← IO.getEnv "NO_COLOR"
  let term ← IO.getEnv "TERM"
  return (noColor.getD "").isEmpty && term != some "dumb" && (← (← IO.getStdout).isTty)

end RankN

/-- Runs the program. -/
def main (args : List String) : IO UInt32 := do
  let vars ← RankN.knownVariables.filterMapM fun name => do
    return (← IO.getEnv name).map fun value => (name, value)
  match RankN.Exit.ofCommandLine args vars (← RankN.showsColors) with
  | .ok exit =>
    IO.print exit.stdout
    IO.eprint exit.stderr
    return exit.code.toUInt32
  | .error _ =>
    IO.eprint (RankN.Exit.announce "no answer")
    return 2
