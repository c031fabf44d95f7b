import RankN.Ty.Basic

/-!
# Expressions

The terms that types are inferred for: variables, functions of one parameter, applications, and
terms annotated with a type. Like types, expressions may have absent parts, and there is an
expression of unknown kind.

**Spines.** An application `f a b` is a head `f` with the arguments `a`, `b`. `Expr.head` and
`Expr.args` take it apart and `Expr.apps` puts it together again (`Expr.apps_head_args`). Both parts
are smaller than the application, which is what lets inference recurse on them. `Expr.spine` finds
both in one walk, for which it first counts how far down the head is.
-/

namespace RankN

/-- Expressions. -/
inductive Expr where
  | var (name : String)
  | fn (param : String) (body : Expr)
  | app (f a : Expr)
  | ann (e : Expr) (type : Ty)
  | unknown (kind : String)
  | absent
deriving DecidableEq

namespace Expr

instance : Inhabited Expr := ⟨absent⟩

/-- The name of an expression's kind; an absent expression has none. -/
def kind : Expr → Option String
  | .var _ => some "Var"
  | .fn .. => some "Func"
  | .app .. => some "App"
  | .ann .. => some "Ann"
  | .unknown kind => some kind
  | .absent => none

/-- The number of nodes, annotations left out. -/
def size : Expr → Nat
  | .fn _ body => body.size + 1
  | .app f a => f.size + a.size + 1
  | .ann e _ => e.size + 1
  | _ => 1

/-- The function of several parameters. -/
def fns (params : List String) (body : Expr) : Expr := params.foldr fn body

/-- A function applied to several arguments. -/
def apps (f : Expr) (args : List Expr) : Expr := args.foldl app f

/-- Give every annotation stamps of its own. -/
def stamp : Expr → StateM Nat Expr
  | .fn param body => return .fn param (← body.stamp)
  | .app f a => return .app (← f.stamp) (← a.stamp)
  | .ann e type => return .ann (← e.stamp) (← type.stamp)
  | e => return e

/-- The least number above all stamps in the annotations. -/
def stampBound : Expr → Nat
  | .fn _ body => body.stampBound
  | .app f a => max f.stampBound a.stampBound
  | .ann e type => max e.stampBound type.stampBound
  | .var _ | .unknown _ | .absent => 0

/-! ## Spines -/

/-- What an application applies, through all its arguments. -/
def head : Expr → Expr
  | .app f _ => f.head
  | e => e

/-- The arguments of an application, first to last. -/
def args : Expr → List Expr
  | .app f a => f.args ++ [a]
  | _ => []

/-- The number of arguments of an application. -/
def arity : Expr → Nat
  | .app f _ => f.arity + 1
  | _ => 0

/-- Take `n` arguments off an application, from the last one on, and put them in front of `args`.
There is no result if there are fewer. -/
def unwind : Nat → Expr → List Expr → Option (Expr × List Expr)
  | 0, e, args => some (e, args)
  | n + 1, .app f a, args => unwind n f (a :: args)
  | _ + 1, _, _ => none

/-- The head of an application and its arguments, first to last. -/
def spine (e : Expr) : Option (Expr × List Expr) := unwind e.arity e []

theorem apps_concat (f a : Expr) (l : List Expr) : apps f (l ++ [a]) = app (apps f l) a := by
  simp [apps]

/-- A head applied to its arguments is the whole application. -/
theorem apps_head_args (e : Expr) : apps e.head e.args = e := by
  induction e with
  | app f a ihf _ => rw [head, args, apps_concat, ihf]
  | _ => rfl

theorem size_head_le (e : Expr) : e.head.size ≤ e.size := by
  induction e with
  | app f a ihf _ => simp only [head, size]; omega
  | _ => exact Nat.le_refl _

/-- The head of an application is smaller than the application. -/
theorem size_head_lt (f a : Expr) : (app f a).head.size < (app f a).size := by
  have := size_head_le f
  simp only [head, size]
  omega

/-- An argument is smaller than the application. -/
theorem size_lt_of_mem_args {e a : Expr} (h : a ∈ e.args) : a.size < e.size := by
  induction e with
  | app f b ihf _ =>
    rw [args, List.mem_append, List.mem_singleton] at h
    simp only [size]
    rcases h with h | rfl
    · have := ihf h
      omega
    · omega
  | _ => simp [args] at h

end Expr

end RankN
