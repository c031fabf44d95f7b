import RankN.Unify

/-!
# Parameters

Before the arguments of an application are looked at, the type of its head is matched against their
number. `Parameters.take` takes one parameter type off the head's type for every argument, and pairs
the two; what is left is the type of the whole application.

**Exposing a function type.** The head's type need not be a function type as it stands. A
quantifier is opened at a new metavariable, a solved metavariable is followed, and an unsolved one
is solved by a function type between two new metavariables of its own scope.

The parameters taken so far are kept when a later one cannot be found.
-/

namespace RankN

/-- An argument that is still to be checked against the type of its parameter. -/
structure Obligation where
  arg : Expr
  type : Ty
deriving DecidableEq

namespace Obligation

/-- The obligation at a position. -/
def get (l : List Obligation) (i : Int) : Except Fault Obligation :=
  match if i < 0 then none else l[i.toNat]? with
  | some o => .ok o
  | none => .error (.outOfRange i)

/-- The obligations, with their positions, that a visit reaches if it stops after the first position
that `p` refuses. -/
def visit (l : List Obligation) (p : Nat → Bool) : List (Obligation × Nat) :=
  RankN.visit (fun x => p x.2) l.zipIdx

end Obligation

/-- A parameter type and the type left once it is taken off. -/
structure Exposed where
  param : Ty
  rest : Ty
deriving DecidableEq

/-- Solve an unsolved metavariable by a function type between two new metavariables. -/
def exposeMVar (m : MVar) : Solve Exposed := do
  let param ← Run.newMVar m.scope
  let result ← Run.newMVar m.scope
  let arrow ← Run.newArrow (.mvar param) (.mvar result)
  assign m arrow
  return ⟨.mvar param, .mvar result⟩

/-- Expose a type as a function type within `n` steps. The arguments still to be matched are for the
error. -/
def exposeWithin (scope : Scope) (args : List Expr) : Nat → Ty → Solve Exposed
  | 0, _ => throw (.fault .cyclic)
  | n + 1, t => do
    match t with
    | .all _ x body =>
      let m ← Run.newMVar scope
      let t ← openAll x body (.mvar m)
      exposeWithin scope args n t
    | .arrow _ param result => return ⟨param, result⟩
    | .mvar m =>
      match (← get).table.solution? m with
      | some t => exposeWithin scope args n t
      | none => exposeMVar m
    | t =>
      let t ← prune t
      throw (.error (.notFunction t args))

/-- Expose a type as a function type. -/
def expose (scope : Scope) (args : List Expr) (t : Ty) : Solve Exposed := do
  exposeWithin scope args ((← get).depth [t]) t

/-- What taking parameters for `args` comes to. -/
structure Parameters (args : List Expr) where
  /-- The arguments for which a parameter was taken, each with its type. -/
  pending : List Obligation
  /-- The type of the whole application, or why no more could be taken. -/
  result : Except (Stop TypeError) Ty
  /-- Parameters are taken for the first arguments, in their order. -/
  matched : pending.map (·.arg) <+: args

namespace Parameters

variable {args : List Expr}

/-- One more argument in front. -/
def cons (ps : Parameters args) (arg : Expr) (type : Ty) : Parameters (arg :: args) where
  pending := ⟨arg, type⟩ :: ps.pending
  result := ps.result
  matched := List.cons_prefix_cons.2 ⟨rfl, ps.matched⟩

/-- Take a parameter off the type of a head for every argument. -/
def take (scope : Scope) (t : Ty) : (args : List Expr) → StateM Run (Parameters args)
  | [] => return ⟨[], .ok t, List.prefix_rfl⟩
  | arg :: args => fun r =>
    match expose scope (arg :: args) t r with
    | .error stop r => (⟨[], .error stop, List.nil_prefix⟩, r)
    | .ok ex r =>
      match take scope ex.rest args r with
      | (ps, r) => (ps.cons arg ex.param, r)

/-- The type of the whole application, or stop. -/
def answer (ps : Parameters args) : Solve Ty :=
  match ps.result with
  | .ok t => return t
  | .error stop => throw stop

/-- The types of the parameters that were taken. -/
def types (ps : Parameters args) : List Ty := ps.pending.map (·.type)

theorem arg_mem (ps : Parameters args) {o : Obligation} (h : o ∈ ps.pending) : o.arg ∈ args :=
  ps.matched.subset (List.mem_map_of_mem h)

end Parameters

end RankN
