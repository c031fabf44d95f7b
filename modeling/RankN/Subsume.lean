import RankN.Unify

/-!
# Subsumption

`subsume scope a b` checks that a value of type `a` can stand where one of type `b` is expected.

The quantifiers of `b` are opened first, at new skolem constants, and those of `a` after them, at
new metavariables that may be solved by these constants. Once neither side is quantified, the two
are made equal. Only the outermost quantifiers count: there is no subsumption inside a type, nor
behind a solved metavariable.
-/

namespace RankN

/-- Check that `a` can stand for `b`, opening at most `n` quantifiers. -/
def subsumeWithin : Nat → Scope → Ty → Ty → Solve Unit
  | 0, _, _, _ => throw (.fault .cyclic)
  | n + 1, scope, a, b => do
    Run.log (.subsume a b)
    match a, b with
    | a, .all _ x t =>
      let c ← Run.newSkolem
      let t ← openAll x t (.skolem c)
      subsumeWithin n (scope.insert c) a t
    | .all _ x t, b =>
      let m ← Run.newMVar scope
      let t ← openAll x t (.mvar m)
      subsumeWithin n scope t b
    | a, b => unify a b

/-- Check that a value of type `a` can stand where one of type `b` is expected. -/
def subsume (scope : Scope) (a b : Ty) : Solve Unit := do
  subsumeWithin ((← get).depth [a, b]) scope a b

end RankN
