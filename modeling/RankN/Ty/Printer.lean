import RankN.Ty.Basic

/-!
# Printed types

Types print with as few parentheses as they can be read back with. Where a type stands decides
whether it needs them: arrows and quantifiers stand alone only in an outermost place, and an
application needs parentheses only as the argument of another one.

`'_3` is a metavariable and `#3` a skolem constant. An absent part prints as `<nil>`, and an unknown
type as nothing.
-/

namespace RankN.Ty

/-- The places in which a type may stand. -/
inductive Place where
  | outer
  | param
  | head
  | arg
deriving DecidableEq

/-- Enclose a text in parentheses if asked to. -/
def enclose (parens : Bool) (s : String) : String := if parens then "(" ++ s ++ ")" else s

/-- The text of a metavariable. -/
def mvarText (m : MVar) : String := "'_" ++ m.id.repr

/-- The text of a type in a given place. -/
def textIn : Place → Ty → String
  | _, .var name => name
  | place, .all _ name body =>
    enclose (place != .outer) ("forall " ++ name ++ ". " ++ textIn .outer body)
  | place, .arrow _ param result =>
    enclose (place != .outer) (textIn .param param ++ " -> " ++ textIn .outer result)
  | place, .app _ fn arg => enclose (place == .arg) (textIn .head fn ++ " " ++ textIn .arg arg)
  | _, .mvar m => mvarText m
  | _, .skolem id => "#" ++ id.repr
  | _, .unknown .. => ""
  | _, .absent => "<nil>"

/-- The printed type. -/
def text (t : Ty) : String := textIn .outer t

end RankN.Ty
