import RankN.Ty.Basic
import RankN.Ordered

/-!
# Names and their types

A `Layer` gives types to finitely many names; an `Env` is a chain of layers, innermost first, in
which a name has the type of the innermost layer that declares it. The chain of no layers is the
*missing* environment: it declares nothing, and nothing can be declared in it.

`Locals` are the names bound by the functions around an expression. They are a single layer, but
here an absent type cannot be read back: looking it up is a fault of the caller.
-/

namespace RankN

/-- What an operation cannot answer at all, as opposed to an error that it reports. -/
inductive Fault where
  /-- A local name was looked up that is bound to an absent type. -/
  | untyped (name : String)
  /-- Nothing can be declared in the missing environment. -/
  | noEnv
  /-- There is no item at this position. -/
  | outOfRange (i : Int)
  /-- The steps of a computation ran out, as happens only where solutions are cyclic. -/
  | cyclic
deriving DecidableEq

/-! ## Layers -/

/-- Finitely many names with their types, each name once. -/
abbrev Layer := List (String × Ty)

namespace Layer

/-- The type of a name. -/
def find? (l : Layer) (name : String) : Option Ty := List.lookup name l

/-- Forget a name. -/
def erase (l : Layer) (name : String) : Layer := l.filter (·.1 != name)

/-- Give a name a type, in place of the one it had. -/
def insert (l : Layer) (name : String) (t : Ty) : Layer := (name, t) :: erase l name

/-- The layer of a list of declarations, later ones in place of earlier ones. -/
def ofList (l : List (String × Ty)) : Layer := l.foldl (fun acc d => insert acc d.1 d.2) []

theorem find?_erase (l : Layer) (name other : String) :
    find? (erase l name) other = if other = name then none else find? l other := by
  induction l with
  | nil => simp [find?, erase]
  | cons d l ih =>
    obtain ⟨x, t⟩ := d
    simp only [find?, erase] at ih
    simp only [find?, erase, List.filter_cons, bne_iff_ne, ne_eq, List.lookup_cons]
    by_cases hx : x = name <;> by_cases ho : other = x <;> grind

@[simp]
theorem find?_insert (l : Layer) (name other : String) (t : Ty) :
    find? (insert l name t) other = if other = name then some t else find? l other := by
  have h := find?_erase l name other
  by_cases ho : other = name
  · simp [find?, insert, ho]
  · simp only [find?, insert, List.lookup_cons, ho, if_false] at h ⊢
    rw [← h]
    grind

end Layer

/-! ## Environments -/

/-- A chain of layers, innermost first. -/
abbrev Env := List Layer

namespace Env

/-- The type of a name: that of the innermost layer which declares it. -/
def find? (env : Env) (name : String) : Option Ty := env.findSome? (·.find? name)

/-- Declare a name in the innermost layer. -/
def declare (env : Env) (name : String) (t : Ty) : Except Fault Env :=
  match env with
  | [] => .error .noEnv
  | layer :: outer => .ok (layer.insert name t :: outer)

/-- Remove a name from the innermost layer. -/
def remove (env : Env) (name : String) : Except Fault Env :=
  match env with
  | [] => .error .noEnv
  | layer :: outer => .ok (layer.erase name :: outer)

/-- All declared names, ascending. -/
def names (env : Env) : List String := Ordered.ofList (env.flatten.map (·.1))

/-- Work on the environment `depth` layers further out, and put the inner layers back. -/
def atDepth (env : Env) (depth : Nat) (f : Env → Except Fault Env) : Except Fault Env := do
  return env.take depth ++ (← f (env.drop depth))

/-- The least number above all stamps in the declared types. -/
def stampBound (env : Env) : Nat :=
  (env.flatten.map fun d => d.2.stampBound).foldl max 0

end Env

/-! ## Locals -/

/-- The names bound around an expression, each name once. -/
abbrev Locals := Layer

namespace Locals

/-- The type of a local name. -/
def find? (locals : Locals) (name : String) : Except Fault (Option Ty) :=
  match Layer.find? locals name with
  | some .absent => .error (.untyped name)
  | t => .ok t

end Locals

end RankN
