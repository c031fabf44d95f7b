import RankN.Report

/-!
# Commands

`run` infers the types of the examples, all or those named, and reports on them. `env` lists the
builtin names with their types. `run` is also what is meant when no command is named.
-/

namespace RankN

/-- What the program is asked to do. -/
inductive Command where
  /-- Report on the examples with these names, or on all. -/
  | run (names : List String)
  /-- List the builtin names. -/
  | env
deriving DecidableEq

/-- What a command prints, and the error with which it fails. -/
structure Output where
  text : String := ""
  failure : Option String := none
deriving DecidableEq

namespace Command

/-- The batch of some examples over the builtin names. -/
def job (examples : List Example) (limit : Int) : Batch.Job :=
  let build : StateM Nat Batch.Job := do
    let layer ← Prelude.layer
    let exprs ← examples.mapM fun ex => ex.expr.stamp
    return { env := [layer], exprs, limit }
  (build Ty.firstStamp).1

/-- Report on the examples with the given names, or on all. -/
def runExamples (p : Palette) (names : List String) (limit : Int) : Except Fault Output := do
  let examples := Example.select names
  if examples.isEmpty then
    return { failure := some ("no examples named [" ++ " ".intercalate names ++ "]") }
  let report ← Report.ofResults p examples (job examples limit).run.results
  if report.unexpected = 0 then
    return { text := report.text }
  else
    let failure := report.unexpected.repr ++ " of " ++ examples.length.repr ++
      " examples had unexpected results"
    return { text := report.text, failure := some failure }

/-- List the builtin names with their types. -/
def listEnv (p : Palette) : Output :=
  let env : Env := [(Prelude.layer Ty.firstStamp).1]
  let lines := env.names.map fun x =>
    p.code x ++ " : " ++ ((env.find? x).getD .absent).text ++ "\n"
  { text := String.join lines }

/-- Carry out a command. -/
def execute (p : Palette) (limit : Int) : Command → Except Fault Output
  | .run names => runExamples p names limit
  | .env => .ok (listEnv p)

end Command

end RankN
