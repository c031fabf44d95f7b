import RankN.Table

/-!
# Obstacles to a solution

A metavariable may be solved by a type only if the type, read through the table, does not contain
it, mentions skolem constants of its scope only, and mentions unsolved metavariables of the same
scope only. An `Obstacle` says which of these fails, and `obstacle?` finds the first one, left to
right.
-/

namespace RankN

/-- Why a metavariable cannot be solved by a type. -/
inductive Obstacle where
  /-- The type mentions a skolem constant outside the metavariable's scope. -/
  | skolemEscape
  /-- The type mentions the metavariable itself. -/
  | occurs
  /-- The type mentions a metavariable of another scope. -/
  | scopeMismatch
deriving DecidableEq

namespace Obstacle

/-- The number that stands for an obstacle. -/
def code : Obstacle → Int
  | .skolemEscape => 0
  | .occurs => 1
  | .scopeMismatch => 2

/-- The obstacle a number stands for; every other number stands for an escape. -/
def ofCode (n : Int) : Obstacle :=
  if n = 1 then .occurs else if n = 2 then .scopeMismatch else .skolemEscape

/-- The wording of an obstacle. -/
def message : Obstacle → String
  | .skolemEscape => "Skolem constant escapes its scope"
  | .occurs => "Implicitly recursive types are not supported"
  | .scopeMismatch => "Metavariable scopes differ"

@[simp]
theorem ofCode_code (o : Obstacle) : ofCode o.code = o := by cases o <;> rfl

end Obstacle

/-! ## What stands in the way of a solution -/

/-- The first obstacle to solving `m` by a type, with `enter` for the solutions of other
metavariables. -/
def obstacleWith (tb : Table) (m : MVar) (enter : Ty → Option Obstacle) : Ty → Option Obstacle
  | .mvar m' =>
    if m' = m then some .occurs
    else match tb.solution? m' with
      | some t => enter t
      | none => if m.scope.equal m'.scope then none else some .scopeMismatch
  | .skolem id => if m.scope.contains id then none else some .skolemEscape
  | .arrow _ param result =>
    (obstacleWith tb m enter param).or (obstacleWith tb m enter result)
  | .app _ fn arg => (obstacleWith tb m enter fn).or (obstacleWith tb m enter arg)
  | .all _ _ body => obstacleWith tb m enter body
  | _ => none

/-- The first obstacle to solving `m` by a type, entering at most `n` nested solutions. -/
def obstacleWithin (tb : Table) (m : MVar) : Nat → Ty → Option Obstacle
  | 0, _ => none
  | n + 1, t => obstacleWith tb m (obstacleWithin tb m n) t

/-- The first obstacle, left to right, to solving `m` by `t`. -/
def obstacle? (tb : Table) (m : MVar) (t : Ty) : Option Obstacle :=
  obstacleWithin tb m tb.hops t

end RankN
