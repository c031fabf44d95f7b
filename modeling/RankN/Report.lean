import RankN.Batch
import RankN.Example
import RankN.Palette
import RankN.Text

/-!
# Reports

A report has one line for each example: its name, its expression, and the type found for it or the
error. An outcome other than the expected one is marked as a conflict and counted.
-/

namespace RankN

/-- The text of a report and the number of unexpected outcomes in it. -/
structure Report where
  unexpected : Nat := 0
  text : String := ""
deriving DecidableEq

namespace Report

/-- The line of an example that was rejected, and whether that was expected. -/
def rejectedLine (p : Palette) (ex : Example) (e : TypeError) : Bool × String :=
  let l := Text.padRight 4 ex.name ++ " " ++ p.code ex.expr.text ++ " => " ++ e.message
  if ex.fails then (true, l ++ " " ++ p.extra "rejected")
  else (false, p.conflict l ++ " " ++ p.extra ("expected " ++ ex.want))

/-- The line of an example that was accepted, and whether that was expected. -/
def acceptedLine (p : Palette) (ex : Example) (t : Ty) : Bool × String :=
  let l := Text.padRight 4 ex.name ++ " " ++ p.code ex.expr.text ++ " : " ++ t.text
  if ex.fails then (false, p.conflict l ++ " " ++ p.extra "expected failure")
  else if t.text ≠ ex.want then
    (false, p.conflict l ++ " " ++ p.extra ("expected " ++ ex.want))
  else (true, p.success l)

/-- Add the line of an example to a report. -/
def add (p : Palette) (report : Report) (ex : Example) (r : Result) : Except Fault Report := do
  let (expected, l) ← match r.outcome with
    | .ok t => pure (acceptedLine p ex t)
    | .error (.error e) => pure (rejectedLine p ex e)
    | .error (.fault f) => throw f
  return { unexpected := report.unexpected + if expected then 0 else 1,
           text := report.text ++ l ++ "\n" }

/-- The report on examples and their results, of which there have to be enough. -/
def ofResults (p : Palette) (examples : List Example) (results : List Result) :
    Except Fault Report :=
  if results.length < examples.length then .error (.outOfRange results.length)
  else
    (examples.zip results).foldlM (fun report x => add p report x.1 x.2)
      { text := p.title "Examples" ++ "\n" }

end Report

end RankN
