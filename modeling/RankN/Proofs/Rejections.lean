import RankN.Infer

/-!
# Inference that stops with a rejection

Inference is looked at in a run alone, without a context around it: an error and the expression it
was found at are what an action stops with. Nothing is written down on the way, so all that is said
about actions on runs applies to inference too. `RankN.Proofs.Recording` shows that inference in a
context does the same.
-/

namespace RankN

/-- An action of inference on a run. -/
abbrev Infer := Action Rejection

instance : Inferring Infer where
  perform x := liftM x
  fail rejection := throw (.error rejection)
  fault f := throw (.fault f)

/-- Reject an expression. -/
def reject {α : Type} (e : Expr) (error : TypeError) : Infer α := Inferring.fail ⟨error, e⟩

/-! The rules of inference, on a run. -/

def solving {α : Type} (e : Expr) (x : Solve α) : Infer α := Inferring.solving e x

def skolemizeWithin (e : Expr) (n : Nat) (scope : Scope) (t : Ty) : Infer (Scope × Ty) :=
  Inferring.skolemizeWithin e n scope t

def skolemize (e : Expr) (scope : Scope) (t : Ty) : Infer (Scope × Ty) :=
  Inferring.skolemize e scope t

def check (names : Names) (scope : Scope) (e : Expr) (t : Ty) : Infer Unit :=
  Inferring.check names scope e t

def synth (names : Names) (scope : Scope) (e : Expr) : Infer Ty := Inferring.synth names scope e

/-- An error of the solver becomes a rejection, and nothing else changes. -/
theorem solving_apply {α : Type} (e : Expr) (x : Solve α) (r : Run) :
    solving e x r =
      match x r with
      | .ok a r => .ok a r
      | .error (.error error) r => .error (.error ⟨error, e⟩) r
      | .error (.fault f) r => .error (.fault f) r := by
  simp only [solving, Inferring.solving, bind, EStateM.bind, Inferring.perform, Action.lift_apply,
    attempt]
  cases x r with
  | ok a r => rfl
  | error stop r => cases stop <;> rfl

theorem skolemizeWithin_zero (e : Expr) (scope : Scope) (t : Ty) :
    skolemizeWithin e 0 scope t = throw (.fault .cyclic) := rfl

theorem skolemizeWithin_succ (e : Expr) (n : Nat) (scope : Scope) (t : Ty) :
    skolemizeWithin e (n + 1) scope t = (do
      Run.log (.check e t)
      match t with
      | .mvar m =>
        match (← get).table.solution? m with
        | some t => skolemizeWithin e n scope t
        | none => return (scope, .mvar m)
      | .all _ x body =>
        let c ← Run.newSkolem
        let t ← openAll x body (.skolem c)
        skolemizeWithin e n (scope.insert c) t
      | t => return (scope, t)) := by
  cases t <;> rfl

end RankN
