import RankN.Expr.Basic

/-!
# Spines

Taking an application apart and putting one together are inverse to each other.

**Two walks.** `Expr.spine` first counts the applications on the way down to the head, and then goes
down as far again and collects the arguments from the last to the first. Both walks follow the
function of an application and never its argument, so an application that is an argument is not
taken apart, and the second walk ends where the first one did (`unwind_arity`).

Main result: `spine_inverse`.
-/

namespace RankN.Expr

/-! ## Heads and arguments of what was put together -/

/-- The head of an expression is no application. -/
theorem head_ne_app (e f a : Expr) : e.head ≠ app f a := by
  induction e with
  | app g b ihg _ => exact ihg
  | var | fn | ann | unknown | absent => exact nofun

theorem head_apps (f : Expr) (l : List Expr) : (apps f l).head = f.head := by
  induction l generalizing f with
  | nil => rfl
  | cons a l ih => exact ih (app f a)

/-- Further arguments come after those that are there. -/
theorem args_apps (f : Expr) (l : List Expr) : (apps f l).args = f.args ++ l := by
  induction l generalizing f with
  | nil => exact (List.append_nil _).symm
  | cons a l ih => exact (ih (app f a)).trans (List.append_assoc f.args [a] l)

theorem args_eq_nil {e : Expr} : e.args = [] ↔ ¬ ∃ f a, e = app f a := by
  cases e with
  | app f a => simp [args]
  | var | fn | ann | unknown | absent => simp [args]

/-- What is no application is its own head. -/
theorem head_eq_self {e : Expr} (h : ¬ ∃ f a, e = app f a) : e.head = e := by
  have happs := apps_head_args e
  rwa [args_eq_nil.2 h] at happs

/-! ## The two walks -/

/-- The second walk takes off all the arguments that the first one counted. -/
theorem unwind_arity (e : Expr) (l : List Expr) :
    unwind e.arity e l = some (e.head, e.args ++ l) := by
  induction e generalizing l with
  | app f a ihf _ => rw [arity, unwind, ihf, head, args, List.append_assoc, List.singleton_append]
  | var | fn | ann | unknown | absent => rfl

theorem spine_eq (e : Expr) : e.spine = some (e.head, e.args) := by
  rw [spine, unwind_arity, List.append_nil]

/-- **Spines and applications are inverse.** For every expression, absent or of unknown kind too,
the spine is there: a head that is no application, and arguments to which the head is to be applied,
in this order, to give the expression back. There are none exactly if the expression is no
application. Conversely, from what is no application, applied to any arguments, whatever they are,
the spine gives back both. -/
theorem spine_inverse :
    (∀ e : Expr, e.spine = some (e.head, e.args) ∧ (¬ ∃ f a, e.head = app f a) ∧
      apps e.head e.args = e ∧ (e.args = [] ↔ ¬ ∃ f a, e = app f a)) ∧
    ∀ (h : Expr) (args : List Expr), (¬ ∃ f a, h = app f a) →
      (apps h args).spine = some (h, args) := by
  constructor
  · intro e
    exact ⟨spine_eq e, fun ⟨f, a, h⟩ => head_ne_app e f a h, apps_head_args e, args_eq_nil⟩
  · intro h args hh
    rw [spine_eq, head_apps, args_apps, head_eq_self hh, args_eq_nil.2 hh, List.nil_append]

/-- A function applied to an application, to an absent expression and to itself applied to one. -/
theorem spine_inverse_of_nested :
    let h : Expr := fn "x" (app (var "x") (var "x"))
    let l : List Expr := [app (app (var "f") (var "a")) (var "b"), absent, app h absent]
    (¬ ∃ f a, h = app f a) ∧ (apps h l).spine = some (h, l) ∧
      (apps absent l).spine = some (absent, l) :=
  ⟨nofun, spine_inverse.2 _ _ nofun, spine_inverse.2 _ _ nofun⟩

end RankN.Expr
