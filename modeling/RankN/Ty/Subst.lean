import RankN.Run

/-!
# Substitution

Substitution replaces a named variable in a type, read through the table of a run. Solved
metavariables are replaced by their substituted solutions, every compound node on the way is made
anew, and it stops at a quantifier that binds the name again. Bound names are never renamed.

`substWith` has a parameter for what to do with a solution and recurses on the type; `substWithin`
follows the solutions and recurses on how many may still be entered. `Table.hops` of them are enough
in a table without cycles.
-/

namespace RankN

/-- Replace the variable `name` by `new`, with `enter` for the solutions of metavariables. -/
def substWith (enter : Ty → StateM Run Ty) (name : String) (new : Ty) : Ty → StateM Run Ty
  | .var x => return if x = name then new else .var x
  | .mvar m => do
    match (← get).table.solution? m with
    | some t => enter t
    | none => return .mvar m
  | .arrow _ param result => do
    let param ← substWith enter name new param
    let result ← substWith enter name new result
    Run.newArrow param result
  | .app _ fn arg => do
    let fn ← substWith enter name new fn
    let arg ← substWith enter name new arg
    Run.newApp fn arg
  | .all n x body =>
    if x = name then return .all n x body
    else do
      let body ← substWith enter name new body
      Run.newAll x body
  | t => return t

/-- Replace the variable `name` by `new`, entering at most `n` nested solutions. -/
def substWithin (name : String) (new : Ty) : Nat → Ty → StateM Run Ty
  | 0, t => return t
  | n + 1, t => substWith (substWithin name new n) name new t

/-- Replace the free occurrences of the variable `name` by `new`. -/
def subst (name : String) (new : Ty) (t : Ty) : StateM Run Ty := do
  substWithin name new (← get).table.hops t

/-- The body of a type quantified over `name`, at the type `new`. -/
def openAll (name : String) (body : Ty) (new : Ty) : StateM Run Ty := subst name new body

end RankN
