import RankN.Env
import RankN.Error
import RankN.Table

/-!
# Inference runs

`Run` is what one inference run has built up: the table of its metavariables, how many of them and
of skolem constants it has allocated, the supply of stamps, and the trace of its steps. The operations of
inference are `Action`s on a run. An action that stops keeps what it changed before.

**Two ways to stop.** An action stops with an error that it reports, of whatever type errors have at
that level, or with a `Fault`, which is no answer.

**Allocation.** Metavariables and skolem constants are numbered from zero within a run. New nodes
take their stamps from a supply that is never rewound, so a node made later is never the same node
as one made earlier.
-/

namespace RankN

/-- The steps of inference that a trace shows. -/
inductive Event where
  | check (e : Expr) (t : Ty)
  | synth (e : Expr)
  | unify (a b : Ty)
  | solve (m : MVar) (t : Ty)
  | subsume (a b : Ty)
deriving DecidableEq

/-- The wording of a step. -/
def Event.message : Event → String
  | .check e t => "check " ++ e.text ++ " : " ++ t.text
  | .synth e => "synth " ++ e.text
  | .unify a b => "unify " ++ a.text ++ " ~ " ++ b.text
  | .solve m t => "solve " ++ Ty.mvarText m ++ m.scope.text ++ " := " ++ t.text
  | .subsume a b => "subsume " ++ a.text ++ " <: " ++ b.text

/-- The state of an inference run. -/
structure Run where
  table : Table := {}
  /-- The number of metavariables allocated, which is the `id` of the next one. -/
  mvars : Nat := 0
  /-- The number of skolem constants in use. -/
  skolems : Nat := 0
  /-- The next stamp in the supply. -/
  stamps : Nat := Ty.firstStamp
  /-- Whether steps are recorded. -/
  recording : Bool := false
  trace : Array Event := #[]
deriving DecidableEq

/-- Why an action stops: an error it reports, or a fault. -/
inductive Stop (ε : Type) where
  | error (e : ε)
  | fault (f : Fault)
deriving DecidableEq

/-- An action on a run, which may stop. -/
abbrev Action (ε : Type) := EStateM (Stop ε) Run

/-- An action of the solver. -/
abbrev Solve := Action TypeError

instance {ε : Type} : MonadLift (StateM Run) (Action ε) where
  monadLift x := fun r => match x r with
    | (a, r) => .ok a r

/-! ## How actions run -/

namespace Action

variable {ε α β : Type} {x : Action ε α} {f : α → Action ε β} {r r' : Run}

/-- Two actions in sequence succeed if both do. -/
theorem bind_eq_ok {b : β} :
    (x >>= f) r = .ok b r' ↔ ∃ a r₁, x r = .ok a r₁ ∧ f a r₁ = .ok b r' := by
  show EStateM.bind x f r = _ ↔ _
  unfold EStateM.bind
  cases x r with
  | ok a r₁ =>
    constructor
    · intro h
      exact ⟨a, r₁, rfl, h⟩
    · rintro ⟨a', r₁', h, h'⟩
      cases h
      exact h'
  | error stop r₁ => simp

/-- Two actions in sequence stop where the first one does, or else where the second one does. -/
theorem bind_eq_error {stop : Stop ε} :
    (x >>= f) r = .error stop r' ↔
      x r = .error stop r' ∨ ∃ a r₁, x r = .ok a r₁ ∧ f a r₁ = .error stop r' := by
  show EStateM.bind x f r = _ ↔ _
  unfold EStateM.bind
  cases x r with
  | ok a r₁ =>
    constructor
    · intro h
      exact .inr ⟨a, r₁, rfl, h⟩
    · rintro (h | ⟨a', r₁', h, h'⟩)
      · cases h
      · cases h
        exact h'
  | error stop' r₁ => simp

/-- An action that cannot stop succeeds with what it returns. -/
@[simp]
theorem lift_apply (x : StateM Run α) (r : Run) :
    (liftM x : Action ε α) r = .ok (x r).1 (x r).2 := rfl

end Action

/-! ## Allocation and recording -/

namespace Run

/-- Draw a new stamp. -/
def freshStamp : StateM Run Nat := fun r => (r.stamps, { r with stamps := r.stamps + 1 })

/-- A new function type. -/
def newArrow (param result : Ty) : StateM Run Ty := return .arrow (← freshStamp) param result

/-- A new type application. -/
def newApp (fn arg : Ty) : StateM Run Ty := return .app (← freshStamp) fn arg

/-- A new quantified type. -/
def newAll (name : String) (body : Ty) : StateM Run Ty := return .all (← freshStamp) name body

/-- Allocate a metavariable whose solution may mention the skolem constants of `scope`. -/
def newMVar (scope : Scope) : StateM Run MVar := fun r =>
  let m : MVar := ⟨r.stamps, r.mvars, scope⟩
  (m, { r with table := r.table.push m, mvars := r.mvars + 1, stamps := r.stamps + 1 })

/-- Allocate a skolem constant, by its number. -/
def newSkolem : StateM Run Int := fun r => (r.skolems, { r with skolems := r.skolems + 1 })

/-- Forget all metavariables and skolem constants, and number them from zero again. -/
def reset (r : Run) : Run := { r with table := {}, mvars := 0, skolems := 0 }

/-- Record a step, if steps are recorded. -/
def log (e : Event) : StateM Run Unit := fun r =>
  ((), if r.recording then { r with trace := r.trace.push e } else r)

@[simp]
theorem table_log (e : Event) (r : Run) : (log e r).2.table = r.table := by
  unfold log
  split <;> rfl

@[simp]
theorem skolems_log (e : Event) (r : Run) : (log e r).2.skolems = r.skolems := by
  unfold log
  split <;> rfl

@[simp]
theorem stamps_log (e : Event) (r : Run) : (log e r).2.stamps = r.stamps := by
  unfold log
  split <;> rfl

/-- A bound on how deep the types `ts` are together, read through the table. -/
def depth (r : Run) (ts : List Ty) : Nat := ts.foldr (fun t n => t.size + r.table.weight + n) 1

end Run

/-- Solve a metavariable of this run, once. -/
def assign (m : MVar) (t : Ty) : Solve Unit := fun r =>
  if !r.table.owns m then .error (.error (.notAllocated m)) r
  else if t = .absent then .error (.error (.absentSolution m)) r
  else if r.table.solved m then .error (.error (.alreadySolved m)) r
  else .ok () { r with table := r.table.write m t }

end RankN
