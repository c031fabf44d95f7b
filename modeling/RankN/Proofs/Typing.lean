import RankN.Expr.Basic
import RankN.Proofs.Nameless
import Mathlib.Logic.Function.Basic

/-!
# Declarative typing

`HasType Γ e A` says that the expression `e` has the type `A` in System F without type abstraction and
application in terms: a quantifier may be instantiated at any closed type, quantified ones included,
and introduced over any constant that nothing else depends on. Types are nameless, so they are taken
up to renaming of bound variables.
-/

namespace RankN

/-- What is assumed of names. -/
abbrev Assumptions := String → Option Nameless

/-- The types that an expression is annotated with. -/
def Expr.annotations : Expr → List Ty
  | .fn _ body => body.annotations
  | .app f a => f.annotations ++ a.annotations
  | .ann e t => t :: e.annotations
  | .var _ | .unknown _ | .absent => []

/-- The constant occurs in no assumption. -/
def Assumptions.Avoids (c : Atom) (Γ : Assumptions) : Prop := ∀ x A, Γ x = some A → c ∉ A.atoms

/-- The constant occurs in no annotation. -/
def Expr.Avoids (c : Atom) (e : Expr) : Prop := ∀ t ∈ e.annotations, c ∉ t.nameless.atoms

/-- Implicitly typed System F with annotations. -/
inductive HasType : Assumptions → Expr → Nameless → Prop
  | var {Γ x A} : Γ x = some A → HasType Γ (.var x) A
  | abs {Γ x e A B} : A.Closed → HasType (Function.update Γ x (some A)) e B →
      HasType Γ (.fn x e) (.arrow A B)
  | app {Γ f a A B} : HasType Γ f (.arrow A B) → HasType Γ a A → HasType Γ (.app f a) B
  | ann {Γ e t} : HasType Γ e t.nameless → HasType Γ (.ann e t) t.nameless
  | inst {Γ e A B} : HasType Γ e (.all A) → B.Closed → HasType Γ e (A.instantiate 0 B)
  | gen {Γ e A c} : HasType Γ e (A.instantiate 0 (.const c)) → c ∉ A.atoms → Γ.Avoids c →
      e.Avoids c → HasType Γ e (.all A)

end RankN
