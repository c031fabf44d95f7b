import RankN.Expr.Printer
import RankN.Obstacle

/-!
# Errors

Why an expression is rejected. Each cause is a constructor with what the reader needs to know;
`TypeError.message` has the wording.
-/

namespace RankN

/-- Why a type or an expression is rejected. -/
inductive TypeError where
  /-- A variable has no type. -/
  | unbound (name : String)
  /-- Two types differ. -/
  | mismatch (a b : Ty)
  /-- A metavariable cannot be solved by a type. -/
  | escape (m : MVar) (solution : Ty) (why : Obstacle)
  /-- A type that is no function type is applied. -/
  | notFunction (type : Ty) (args : List Expr)
  /-- No type can be synthesized for an expression of this form. -/
  | unsynthesizable (e : Expr)
  /-- A metavariable belongs to another run, or to none. -/
  | notAllocated (m : MVar)
  /-- A metavariable cannot be solved by an absent type. -/
  | absentSolution (m : MVar)
  /-- A metavariable has a solution already. -/
  | alreadySolved (m : MVar)
  /-- There is no expression to infer a type for. -/
  | noExpr
  /-- There is no environment to infer a type in. -/
  | noEnv
  /-- Any other cause, in its own words. -/
  | other (message : String)
deriving DecidableEq

namespace TypeError

/-- The wording of an error. -/
def message : TypeError → String
  | .unbound name => "Variable " ++ name ++ " not found"
  | .mismatch a b => "Failed to unify " ++ a.text ++ " with " ++ b.text
  | .escape m t why =>
    why.message ++ ": cannot solve " ++ Ty.mvarText m ++ m.scope.text ++ " := " ++ t.text
  | .notFunction t args =>
    "Cannot apply " ++ t.text ++ " to arguments [" ++ ", ".intercalate (args.map Expr.text) ++ "]"
  | .unsynthesizable e =>
    match e.kind with
    | some kind => "Cannot synthesize a type for " ++ kind ++ " expression " ++ e.text
    | none => "Cannot synthesize a type for an empty expression"
  | .notAllocated m =>
    "Metavariable " ++ Ty.mvarText m ++ " was not allocated by this inference run"
  | .absentSolution m => "Cannot solve metavariable " ++ Ty.mvarText m ++ " with a nil type"
  | .alreadySolved m => "Metavariable " ++ Ty.mvarText m ++ " is already solved"
  | .noExpr => "Empty expression"
  | .noEnv => "Empty type-environment"
  | .other message => message

end TypeError

end RankN
