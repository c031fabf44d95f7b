import RankN.Expr.Basic
import RankN.Prelude

/-!
# The example suite

Expressions over the builtin names with the outcome that is expected of each: the printed type, or
that it is rejected. They are grouped by what they try out: instantiation at polymorphic types (A),
lists of polymorphic values (C), functions that apply others (D), and arguments of higher rank (E).
-/

namespace RankN

/-- An expression with its expected outcome. -/
structure Example where
  name : String
  expr : Expr
  /-- The printed type that is expected, of an example that should be accepted. -/
  want : String := ""
  /-- Whether the example should be rejected. -/
  fails : Bool := false
deriving DecidableEq

namespace Example

/-- An example that should be accepted. -/
def accepted (name : String) (expr : Expr) (want : String) : Example := { name, expr, want }

/-- An example that should be rejected. -/
def rejected (name : String) (expr : Expr) : Example := { name, expr, fails := true }

/-- A variable applied to arguments. -/
def call (f : String) (args : List Expr) : Expr := .apps (.var f) args

/-- All examples. -/
def suite : List Example :=
  let v := Expr.var
  let idToId := Ty.arrows [.identity] .identity
  let ids := Prelude.list .identity
  [ accepted "A1" (.fns ["x", "y"] (v "x")) "'_3 -> '_2 -> '_3",
    accepted "A2" (call "choose" [v "id"]) "('_1 -> '_1) -> '_1 -> '_1",
    accepted "A3" (.ann (call "choose" [v "id"]) idToId) "(forall t. t -> t) -> forall t. t -> t",
    accepted "A4" (call "choose" [v "Nil", v "ids"]) "List (forall t. t -> t)",
    accepted "A5" (call "id" [v "auto"]) "(forall t. t -> t) -> forall t. t -> t",
    accepted "A6" (call "id" [v "auto2"]) "(forall t. t -> t) -> '_1 -> '_1",
    accepted "A7" (call "choose" [v "id", v "auto"]) "(forall t. t -> t) -> forall t. t -> t",
    rejected "A8" (call "choose" [v "id", v "auto2"]),
    rejected "A9" (call "f" [call "choose" [v "id"], v "ids"]),
    accepted "A10" (call "f" [.ann (call "choose" [v "id"]) idToId, v "ids"]) "forall t. t -> t",
    accepted "A11" (call "poly" [v "id"]) "Pair Int Bool",
    accepted "A12" (call "poly" [.fn "x" (v "x")]) "Pair Int Bool",
    accepted "A13" (call "id" [v "poly", .fn "x" (v "x")]) "Pair Int Bool",
    accepted "C1" (call "length" [v "ids"]) "Int",
    accepted "C2" (call "tail" [v "ids"]) "List (forall t. t -> t)",
    accepted "C3" (call "head" [v "ids"]) "forall t. t -> t",
    accepted "C4" (call "single" [v "id"]) "List ('_1 -> '_1)",
    accepted "C5" (.ann (call "single" [v "id"]) ids) "List (forall t. t -> t)",
    -- `id` is instantiated before `ids` is checked, so these two need an expected type.
    rejected "C6" (call "Cons" [v "id", v "ids"]),
    rejected "C7" (call "Cons" [.fn "x" (v "x"), v "ids"]),
    accepted "C8" (call "append" [call "single" [v "inc"], call "single" [v "id"]])
      "List (Int -> Int)",
    rejected "C9" (call "g" [call "single" [v "id"], v "ids"]),
    accepted "C10" (call "g" [.ann (call "single" [v "id"]) ids, v "ids"]) "forall t. t -> t",
    accepted "C11" (call "map" [v "poly", call "single" [v "id"]]) "List (Pair Int Bool)",
    accepted "C12" (call "map" [v "head", call "single" [v "ids"]]) "List (forall t. t -> t)",
    accepted "C13" (.ann (call "Cons" [v "id", v "ids"]) ids) "List (forall t. t -> t)",
    accepted "D1" (call "app" [v "poly", v "id"]) "Pair Int Bool",
    rejected "D2" (call "revapp" [v "id", v "poly"]),
    accepted "D3" (call "runST" [v "argST"]) "Int",
    accepted "D4" (call "app" [v "runST", v "argST"]) "Int",
    rejected "D5" (call "revapp" [v "argST", v "runST"]),
    rejected "E1" (call "k" [v "h", v "l"]),
    rejected "E2" (call "k" [.fn "x" (call "h" [v "x"]), v "l"]),
    accepted "E3" (call "r" [.fns ["x", "y"] (v "y")]) "Int" ]

/-- The examples with the given names, in the order of the suite; all of them if none is given. -/
def select (names : List String) : List Example :=
  if names.isEmpty then suite else suite.filter fun ex => names.contains ex.name

end Example

end RankN
