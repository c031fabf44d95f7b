import RankN.Parameters
import RankN.Subsume

/-!
# Inference

Inference is bidirectional. `synth` finds a type for an expression, and `check` checks an expression
against a type that is already known.

**Applications** are taken whole. A head is synthesized, its parameters are taken off its type, and
only then is each argument checked against its parameter. When an application is checked, its result
is compared with the expected type before the arguments are looked at, so that what is known from
outside is known inside.

**Functions** are checked against a function type, and otherwise get new metavariables for parameter
and result. Against a quantified type an expression is checked at a new skolem constant.

**Failures** are reported once, where they are found, together with the expression that was being
checked or synthesized, and pass through from there on. What it is to report one is left open: the
rules are written over any monad with a `fail`.
-/

namespace RankN

/-- An error and the expression it was found at. -/
structure Rejection where
  error : TypeError
  invalid : Expr
deriving DecidableEq

/-- A monad in which inference can be performed. -/
class Inferring (m : Type → Type) extends Monad m where
  /-- Change the run. -/
  perform {α : Type} : StateM Run α → m α
  /-- Report an error and the expression it was found at, and stop. -/
  fail {α : Type} : Rejection → m α
  /-- Stop without a report. -/
  fault {α : Type} : Fault → m α

/-- What an action of the solver comes to. -/
def attempt {α : Type} (x : Solve α) : StateM Run (Except (Stop TypeError) α) := fun r =>
  match x r with
  | .ok a r => (.ok a, r)
  | .error stop r => (.error stop, r)

/-- The names around an expression: those declared, and those bound by functions. -/
structure Names where
  env : Env
  locals : Locals := []

namespace Names

/-- Bind a name. -/
def insert (names : Names) (x : String) (t : Ty) : Names :=
  { names with locals := Layer.insert names.locals x t }

/-- The type of a name; bound names hide declared ones. -/
def find? (names : Names) (x : String) : Except Fault (Option Ty) := do
  match ← names.locals.find? x with
  | some t => return some t
  | none => return names.env.find? x

end Names

namespace Inferring

variable {m : Type → Type} [Inferring m]

/-- An action of the solver, whose errors are found at `e`. -/
def solving {α : Type} (e : Expr) (x : Solve α) : m α := do
  match ← perform (attempt x) with
  | .ok a => return a
  | .error (.error error) => fail ⟨error, e⟩
  | .error (.fault f) => fault f

/-- Open the quantifiers of an expected type at new skolem constants, and follow solutions, within
`n` steps. Returns the scope and the type that are left. -/
def skolemizeWithin (e : Expr) : Nat → Scope → Ty → m (Scope × Ty)
  | 0, _, _ => fault .cyclic
  | n + 1, scope, t => do
    perform (Run.log (.check e t))
    match t with
    | .mvar k =>
      match (← perform get).table.solution? k with
      | some t => skolemizeWithin e n scope t
      | none => return (scope, .mvar k)
    | .all _ x body =>
      let c ← perform Run.newSkolem
      let t ← perform (openAll x body (.skolem c))
      skolemizeWithin e n (scope.insert c) t
    | t => return (scope, t)

/-- Open the quantifiers of an expected type and follow solutions. -/
def skolemize (e : Expr) (scope : Scope) (t : Ty) : m (Scope × Ty) := do
  skolemizeWithin e ((← perform get).depth [t]) scope t

mutual

/-- Check an expression against a type. -/
def check (names : Names) (scope : Scope) (e : Expr) (t : Ty) : m Unit := do
  let (scope, t) ← skolemize e scope t
  match e, t with
  | .fn x body, .arrow _ param result => check (names.insert x param) scope body result
  | .app f a, t =>
    let ft ← synth names scope (Expr.app f a).head
    let ps ← perform (Parameters.take scope ft (Expr.app f a).args)
    let result ← solving (.app f a) ps.answer
    solving (.app f a) (subsume scope result t)
    ps.pending.attach.forM fun o => check names scope o.val.arg o.val.type
  | e, t =>
    let found ← synth names scope e
    solving e (subsume scope found t)
termination_by 2 * e.size + 1
decreasing_by
  · simp only [Expr.size]; omega
  · have := Expr.size_head_lt f a; omega
  · have := Expr.size_lt_of_mem_args (ps.arg_mem o.property); omega
  · omega

/-- Synthesize a type for an expression. -/
def synth (names : Names) (scope : Scope) (e : Expr) : m Ty := do
  perform (Run.log (.synth e))
  match e with
  | .var x =>
    match names.find? x with
    | .ok (some t) => return t
    | .ok none => fail ⟨.unbound x, .var x⟩
    | .error f => fault f
  | .ann e .absent => fail ⟨.unsynthesizable (.ann e .absent), .ann e .absent⟩
  | .ann e t =>
    check names scope e t
    return t
  | .app f a =>
    let ft ← synth names scope (Expr.app f a).head
    let ps ← perform (Parameters.take scope ft (Expr.app f a).args)
    let result ← solving (.app f a) ps.answer
    ps.pending.attach.forM fun o => check names scope o.val.arg o.val.type
    return result
  | .fn x body =>
    let param ← perform (Run.newMVar scope)
    let result ← perform (Run.newMVar scope)
    check (names.insert x (.mvar param)) scope body (.mvar result)
    perform (Run.newArrow (.mvar param) (.mvar result))
  | e => fail ⟨.unsynthesizable e, e⟩
termination_by 2 * e.size
decreasing_by
  · simp only [Expr.size]; omega
  · have := Expr.size_head_lt f a; omega
  · have := Expr.size_lt_of_mem_args (ps.arg_mem o.property); omega
  · simp only [Expr.size]; omega

end

end Inferring

end RankN
