import RankN.Env

/-!
# Builtin names

The names that examples are written with: lists, pairs, state threads, and functions with
polymorphic parameters. The type of `id`, wherever a builtin mentions it, is the one node
`Ty.identity`; all other nodes are made anew each time the builtins are declared.
-/

namespace RankN.Prelude

/-- The type `List elem`. -/
def list (elem : Ty) : Ty := .apps (.var "List") [elem]

/-- The type `ST state result`. -/
def st (state result : Ty) : Ty := .apps (.var "ST") [state, result]

/-- The type `Pair fst snd`. -/
def pair (fst snd : Ty) : Ty := .apps (.var "Pair") [fst, snd]

/-- The type of integers. -/
def int : Ty := .var "Int"

/-- The type of truth values. -/
def bool : Ty := .var "Bool"

/-- The builtin names and their types, the nodes of `Ty.identity` apart without stamps. -/
def declarations : List (String × Ty) :=
  let t : Ty := .var "t"
  let a : Ty := .var "a"
  let b : Ty := .var "b"
  let s : Ty := .var "s"
  let id := Ty.identity
  [ ("head", .alls ["t"] (.arrows [list t] t)),
    ("tail", .alls ["t"] (.arrows [list t] (list t))),
    ("Nil", .alls ["t"] (list t)),
    ("Cons", .alls ["t"] (.arrows [t, list t] (list t))),
    ("single", .alls ["t"] (.arrows [t] (list t))),
    ("append", .alls ["t"] (.arrows [list t, list t] (list t))),
    ("length", .alls ["t"] (.arrows [list t] int)),
    ("runST", .alls ["t"] (.arrows [.alls ["s"] (st s t)] t)),
    ("argST", .alls ["s"] (st s int)),
    ("pair", .alls ["a", "b"] (.arrows [a, b] (pair a b))),
    ("pair2", .alls ["b", "a"] (.arrows [a, b] (pair a b))),
    ("id", id),
    ("ids", list id),
    ("inc", .arrows [int] int),
    ("choose", .alls ["t"] (.arrows [t, t] t)),
    ("poly", .arrows [id] (pair int bool)),
    ("auto", .arrows [id] id),
    ("auto2", .alls ["b"] (.arrows [id, b] b)),
    ("map", .alls ["a", "b"] (.arrows [.arrows [a] b, list a] (list b))),
    ("app", .alls ["a", "b"] (.arrows [.arrows [a] b, a] b)),
    ("revapp", .alls ["a", "b"] (.arrows [a, .arrows [a] b] b)),
    ("f", .alls ["t"] (.arrows [.arrows [t] t, list t] t)),
    ("g", .alls ["t"] (.arrows [list t, list t] t)),
    ("k", .alls ["t"] (.arrows [t, list t] t)),
    ("h", .arrows [int] id),
    ("l", list (.alls ["t"] (.arrows [int, t] t))),
    ("r", .arrows [.alls ["a"] (.arrows [a] id)] int) ]

/-- A layer that declares the builtin names, with nodes of its own. -/
def layer : StateM Nat Layer := do
  let declarations ← declarations.mapM fun d => do return (d.1, ← d.2.stamp)
  return Layer.ofList declarations

end RankN.Prelude
