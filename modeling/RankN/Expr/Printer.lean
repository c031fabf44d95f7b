import RankN.Expr.Basic
import RankN.Ty.Printer

/-!
# Printed expressions

Expressions print with as few parentheses as they can be read back with. A function needs them as
the head or the argument of an application, an application only as an argument, and an annotation
always stands in its own.

An absent part prints as `<nil>` and an unknown expression as the name of its kind in angle
brackets.
-/

namespace RankN.Expr

/-- The places in which an expression may stand. -/
inductive Place where
  | outer
  | head
  | arg
deriving DecidableEq

/-- The text of an expression in a given place. -/
def textIn : Place → Expr → String
  | _, .var name => name
  | place, .fn param body =>
    Ty.enclose (place != .outer) ("fn " ++ param ++ " -> " ++ textIn .outer body)
  | place, .app f a => Ty.enclose (place == .arg) (textIn .head f ++ " " ++ textIn .arg a)
  | _, .ann e type => "(" ++ textIn .outer e ++ " : " ++ type.text ++ ")"
  | _, .unknown kind => "<" ++ kind ++ ">"
  | _, .absent => "<nil>"

/-- The printed expression. -/
def text (e : Expr) : String := textIn .outer e

end RankN.Expr
