import RankN.Scope

/-!
# Types

The types of System F, together with the two kinds of unknowns that inference works with:
metavariables, which stand for a type still to be found, and skolem constants, which stand for a
type that nothing may be assumed about.

**Stamps.** A type is a tree, but the same node can be reached along several paths, and it matters
which: unification treats one node met twice as settled without looking into it. Every compound
node carries a stamp, and two trees are *the same node* when they are equal, stamps included. The
stamp `0` is that of a node nobody has stamped yet; `Ty.stamp` gives such nodes stamps of their
own. A type's meaning does not depend on its stamps: `Ty.plain` forgets them.

**Odd types.** A type may have a missing part (`absent`), and there is a type that nothing is known
about but the name of its kind (`unknown`).
-/

namespace RankN

/-- A metavariable. Its `id` is the position of its slot in the table of the run that allocated it;
`scope` holds the skolem constants its solution may mention. -/
structure MVar where
  stamp : Nat
  id : Int
  scope : Scope
deriving DecidableEq

/-- Types. -/
inductive Ty where
  | var (name : String)
  | all (stamp : Nat) (name : String) (body : Ty)
  | arrow (stamp : Nat) (param result : Ty)
  | app (stamp : Nat) (fn arg : Ty)
  | mvar (m : MVar)
  | skolem (id : Int)
  | unknown (stamp : Nat) (kind : String)
  | absent
deriving DecidableEq

namespace Ty

instance : Inhabited Ty := ⟨absent⟩

/-- The name of a type's kind; an absent type has none. -/
def kind : Ty → Option String
  | .var _ => some "Var"
  | .all .. => some "Forall"
  | .arrow .. => some "Arrow"
  | .app .. => some "App"
  | .mvar _ => some "Meta"
  | .skolem _ => some "Skolem"
  | .unknown _ kind => some kind
  | .absent => none

/-- The number of nodes. -/
def size : Ty → Nat
  | .all _ _ body => body.size + 1
  | .arrow _ param result => param.size + result.size + 1
  | .app _ fn arg => fn.size + arg.size + 1
  | _ => 1

/-! ## Building types -/

/-- The function type of several parameters. -/
def arrows (params : List Ty) (result : Ty) : Ty := params.foldr (arrow 0) result

/-- The type quantified over several names, the first outermost. -/
def alls (names : List String) (body : Ty) : Ty := names.foldr (all 0) body

/-- A type constructor applied to several arguments. -/
def apps (fn : Ty) (args : List Ty) : Ty := args.foldl (app 0) fn

/-! ## Stamps -/

/-- The type of the identity function, one node wherever it is mentioned. -/
def identity : Ty := .all 1 "t" (.arrow 2 (.var "t") (.var "t"))

/-- The first stamp in the supply, above that of an unstamped node and those of `identity`. -/
def firstStamp : Nat := 3

/-- The type without its stamps. Metavariables and unknown types keep theirs, which tell them
apart. -/
def plain : Ty → Ty
  | .all _ name body => .all 0 name body.plain
  | .arrow _ param result => .arrow 0 param.plain result.plain
  | .app _ fn arg => .app 0 fn.plain arg.plain
  | t => t

/-- The least number above all stamps in a type. -/
def stampBound : Ty → Nat
  | .all n _ body => max (n + 1) body.stampBound
  | .arrow n param result => max (n + 1) (max param.stampBound result.stampBound)
  | .app n fn arg => max (n + 1) (max fn.stampBound arg.stampBound)
  | .mvar m => m.stamp + 1
  | .unknown n _ => n + 1
  | .var _ | .skolem _ | .absent => 0

/-- Draw the next stamp from the supply. -/
def freshStamp : StateM Nat Nat := fun n => (n, n + 1)

/-- Give every node that has no stamp yet one of its own. A stamped node is left as it is, with all
that is below it. -/
def stamp : Ty → StateM Nat Ty
  | .all 0 name body => return .all (← freshStamp) name (← body.stamp)
  | .arrow 0 param result => return .arrow (← freshStamp) (← param.stamp) (← result.stamp)
  | .app 0 fn arg => return .app (← freshStamp) (← fn.stamp) (← arg.stamp)
  | .unknown 0 kind => return .unknown (← freshStamp) kind
  | t => return t

end Ty

end RankN
