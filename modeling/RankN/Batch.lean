import RankN.Context

/-!
# Batches

The types of many expressions are inferred side by side, each by a task with a context of its own.

**Tasks.** A task starts by looking whether the batch has been cancelled. If so it is refused;
otherwise it infers the type of its expression and leaves the result in its own place. A refused
task fails the batch, which cancels it for the tasks still waiting. An expression that is rejected
is a result like any other and fails nothing.

**Schedules.** In what order tasks start and finish, and when the batch is cancelled from outside,
is not for the batch to say. A schedule is a list of such steps; a step that cannot happen, such as
one that starts more tasks than the limit allows, is passed over. `Batch.inOrder` runs one task
after the other.
-/

namespace RankN

/-- What a batch tells about one expression. It is empty until the task is done. -/
structure Result where
  expr : Expr := .absent
  outcome : Except (Stop TypeError) Ty := .ok .absent
  /-- The expression at which the error was found. -/
  invalid : Expr := .absent
  trace : Array Event := #[]

namespace Batch

/-- The expressions of a batch and how to treat them. -/
structure Job where
  env : Env
  exprs : List Expr
  /-- How many tasks may run at a time; no limit unless it is positive. -/
  limit : Int := 0
  /-- The context that every task starts with. -/
  context : Context := {}

/-- Where a task stands. -/
inductive Phase where
  | waiting
  /-- The task has started, and has seen whether the batch was cancelled. -/
  | started (refused : Bool)
  /-- The task is over. -/
  | done (refused : Bool)
deriving DecidableEq

/-- What can happen next in a batch. -/
inductive Step where
  | start (i : Nat)
  | finish (i : Nat)
  | cancel
deriving DecidableEq

/-- A batch under way. -/
structure Progress where
  phases : List Phase
  results : List Result
  cancelled : Bool := false
  /-- Whether a refused task is over. -/
  failed : Bool := false

/-- The wording of the error of a batch in which a task was refused. -/
def cancelledMessage : String := "context canceled"

/-- Infer the type of one expression. -/
def Job.result (job : Job) (e : Expr) : Result :=
  match job.context.infer e job.env with
  | (outcome, c) => { expr := e, outcome, invalid := c.invalid, trace := c.run.trace }

namespace Progress

/-- A batch before its first step. -/
def initial (job : Job) : Progress where
  phases := job.exprs.map fun _ => .waiting
  results := job.exprs.map fun _ => {}

/-- The number of tasks that have started and not finished. -/
def active (p : Progress) : Nat :=
  p.phases.countP fun
    | .started _ => true
    | _ => false

/-- Whether one more task may start. -/
def hasRoom (p : Progress) (job : Job) : Bool := job.limit ≤ 0 || p.active < job.limit

/-- What a step does, if it can happen. -/
def step? (job : Job) (p : Progress) : Step → Option Progress
  | .start i =>
    if p.phases[i]? = some .waiting ∧ p.hasRoom job then
      some { p with phases := p.phases.set i (.started p.cancelled) }
    else none
  | .finish i =>
    match p.phases[i]?, job.exprs[i]? with
    | some (.started false), some e =>
      some { p with
        phases := p.phases.set i (.done false), results := p.results.set i (job.result e) }
    | some (.started true), some _ =>
      some { p with phases := p.phases.set i (.done true), failed := true, cancelled := true }
    | _, _ => none
  | .cancel => some { p with cancelled := true }

/-- A batch after a schedule. -/
def execute (job : Job) (p : Progress) (schedule : List Step) : Progress :=
  schedule.foldl (fun p s => (p.step? job s).getD p) p

end Progress

/-- The schedule that runs one task after the other. -/
def inOrder (job : Job) : List Step :=
  (List.range job.exprs.length).flatMap fun i => [.start i, .finish i]

/-- Infer the types of all expressions, under a schedule. -/
def Job.execute (job : Job) (schedule : List Step) : Progress :=
  (Progress.initial job).execute job schedule

/-- Infer the types of all expressions, one after the other. -/
def Job.run (job : Job) : Progress := job.execute (inOrder job)

end Batch

end RankN
