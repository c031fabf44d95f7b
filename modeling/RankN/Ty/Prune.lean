import RankN.Run

/-!
# Pruning

Pruning replaces every solved metavariable in a type by its pruned solution. It writes what it
found back into the table, so that the next pruning need not follow the chain again. A node in
which nothing changed stays the same node.

`pruneWith` has a parameter for what to do with a solution and recurses on the type; `pruneWithin`
follows the solutions and recurses on how many may still be entered. `Table.hops` of them are enough
in a table without cycles.
-/

namespace RankN

/-- Prune a type, with `enter` for the solutions of metavariables. -/
def pruneWith (enter : Ty → StateM Run Ty) : Ty → StateM Run Ty
  | .mvar m => do
    match (← get).table.solution? m with
    | some t =>
      let t ← enter t
      modify fun r => { r with table := r.table.write m t }
      return t
    | none => return .mvar m
  | .arrow n param result => do
    let param' ← pruneWith enter param
    let result' ← pruneWith enter result
    if param' = param ∧ result' = result then return .arrow n param result
    else Run.newArrow param' result'
  | .app n fn arg => do
    let fn' ← pruneWith enter fn
    let arg' ← pruneWith enter arg
    if fn' = fn ∧ arg' = arg then return .app n fn arg else Run.newApp fn' arg'
  | .all n x body => do
    let body' ← pruneWith enter body
    if body' = body then return .all n x body else Run.newAll x body'
  | t => return t

/-- Prune a type, entering at most `n` nested solutions. -/
def pruneWithin : Nat → Ty → StateM Run Ty
  | 0, t => return t
  | n + 1, t => pruneWith (pruneWithin n) t

/-- Replace every solved metavariable by its solution, and shorten the chains passed. -/
def prune (t : Ty) : StateM Run Ty := do pruneWithin (← get).table.hops t

end RankN
