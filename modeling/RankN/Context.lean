import RankN.Infer

/-!
# Inference contexts

A context can be used for one inference after another. It keeps the run of the latest one, so that
the metavariables in its answer can still be asked about, and the first failure of that run: the
error, and the expression it was found at.

**Starting over.** A context forgets a run only when another inference starts, or when asked to,
and only if an inference has run. Metavariables of a forgotten run are not those of the next one,
although they are numbered alike: an inference draws its stamps above all those it has drawn before
and those in what it is given.
-/

namespace RankN

/-- A context for inference. -/
structure Context where
  run : Run := {}
  /-- Whether an inference has run since the context was last reset. -/
  used : Bool := false
  /-- Whether anyone listens to the steps of inference. -/
  listening : Bool := false
  /-- The first error of the run. -/
  error : Option TypeError := none
  /-- The expression at which the first error was found. -/
  invalid : Expr := .absent

namespace Context

/-- Turn the recording of steps on or off; steps are recorded only once someone listens. -/
def trace (c : Context) (on listen : Bool) : Context :=
  let listening := c.listening || listen
  { c with listening := listening, run := { c.run with recording := on && listening } }

/-- The steps recorded so far, and the context without them. -/
def takeTrace (c : Context) : Array Event × Context :=
  (c.run.trace, { c with run := { c.run with trace := #[] } })

/-- Forget the run and its failure, if an inference has run. -/
def reset (c : Context) : Context :=
  if c.used then { c with run := c.run.reset, used := false, error := none, invalid := .absent }
  else c

/-- Remember a failure, unless there was one before. -/
def record (c : Context) (rejection : Rejection) : Context :=
  match c.error with
  | none => { c with error := some rejection.error, invalid := rejection.invalid }
  | some _ => c

/-- Change the run. -/
def perform {α : Type} (c : Context) (x : StateM Run α) : α × Context :=
  match x c.run with
  | (a, r) => (a, { c with run := r })

/-- Run an action of the solver. Its errors are not remembered. -/
def trySolve {α : Type} (c : Context) (x : Solve α) : Except (Stop TypeError) α × Context :=
  match x c.run with
  | .ok a r => (.ok a, { c with run := r })
  | .error stop r => (.error stop, { c with run := r })

/-- An action of inference in a context: it works on the run of the context, and its first failure is
remembered at once. -/
abbrev Session := EStateM (Stop TypeError) Context

instance : Inferring Session where
  perform x := fun c =>
    match c.perform x with
    | (a, c) => .ok a c
  fail rejection := do
    modify (·.record rejection)
    throw (.error rejection.error)
  fault f := throw (.fault f)

/-- Run an action of inference. -/
def tryInfer {α : Type} (c : Context) (x : Session α) : Except (Stop TypeError) α × Context :=
  match x c with
  | .ok a c => (.ok a, c)
  | .error stop c => (.error stop, c)

/-- Lift the supply of stamps above those in an expression and an environment. -/
def above (c : Context) (e : Expr) (env : Env) : Context :=
  { c with run := { c.run with stamps := max c.run.stamps (max e.stampBound env.stampBound) } }

/-- Infer the type of an expression in an environment. -/
def infer (c : Context) (e : Expr) (env : Env) : Except (Stop TypeError) Ty × Context :=
  let c := { c.reset with used := true }
  if e = .absent then (.error (.error .noExpr), { c with error := some .noExpr })
  else if env = [] then (.error (.error .noEnv), { c with error := some .noEnv })
  else (c.above e env).tryInfer do
    let t ← Inferring.synth { env } .empty e
    Inferring.perform (prune t)

end Context

end RankN
