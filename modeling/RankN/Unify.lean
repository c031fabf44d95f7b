import RankN.Ty.Prune
import RankN.Ty.Subst

/-!
# Unification

`unify a b` makes two types equal by solving metavariables; `solve m t` makes a metavariable equal
to a type.

**Solving.** A metavariable is solved once, and only if `obstacle?` finds nothing in the way. One
that has a solution stands for it from then on, on either side.

**Quantifiers.** Two quantified types are equal if their bodies are at an arbitrary type, for which
a new skolem constant stands. One node met on both sides is equal to itself and is not looked into.

**Steps.** Each call descends into its types, read through the table, or solves a metavariable,
which at most doubles how deep types are. Where solutions are cyclic, the steps that come to an end
do so before the same two nodes meet again. `Run.steps` counts what both allow; only steps that
never end use it up.
-/

namespace RankN

/-- The number of nested steps that making types `ts` equal may take. -/
def Run.steps (r : Run) (ts : List Ty) : Nat :=
  (r.depth ts * r.depth ts) <<< (r.table.unsolved + 3)

/-- The error for two types that are never equal. -/
def mismatch {α : Type} (a b : Ty) : Solve α := do
  let a ← prune a
  let b ← prune b
  throw (.error (.mismatch a b))

/-- Solve an unsolved metavariable, if nothing stands in the way. -/
def settle (m : MVar) (t : Ty) : Solve Unit := do
  match obstacle? (← get).table m t with
  | some why =>
    let t ← prune t
    throw (.error (.escape m t why))
  | none => assign m t

mutual

/-- Make two types equal within a number of nested steps. -/
def unifyWithin : Nat → Ty → Ty → Solve Unit
  | 0, _, _ => throw (.fault .cyclic)
  | n + 1, a, b => do
    Run.log (.unify a b)
    if a = b then return ()
    else match a, b with
      | .arrow _ p r, .arrow _ p' r' =>
        unifyWithin n p p'
        unifyWithin n r r'
      | .app _ f x, .app _ f' x' =>
        unifyWithin n f f'
        unifyWithin n x x'
      | .all _ x t, .all _ y u =>
        let c ← Run.newSkolem
        let t ← openAll x t (.skolem c)
        let u ← openAll y u (.skolem c)
        unifyWithin n t u
      | .mvar m, t => solveWithin n m t
      | t, .mvar m => solveWithin n m t
      | t, u => mismatch t u

/-- Make a metavariable equal to a type within a number of nested steps. -/
def solveWithin : Nat → MVar → Ty → Solve Unit
  | 0, _, _ => throw (.fault .cyclic)
  | n + 1, m, t => do
    Run.log (.solve m t)
    if t = .mvar m then return ()
    else
      let tb := (← get).table
      match tb.solution? m, t with
      | some u, t => unifyWithin n u t
      | none, .mvar m' =>
        match tb.solution? m' with
        | some u => solveWithin n m u
        | none => settle m (.mvar m')
      | none, t => settle m t

end

/-- Make two types equal by solving metavariables. -/
def unify (a b : Ty) : Solve Unit := do unifyWithin ((← get).steps [a, b]) a b

/-- Make a metavariable equal to a type. -/
def solve (m : MVar) (t : Ty) : Solve Unit := do solveWithin ((← get).steps [.mvar m, t]) m t

end RankN
