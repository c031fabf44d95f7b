import RankN.Proofs.Typing
import RankN.Proofs.Unifiers
import Mathlib.Data.List.Forall2

/-!
# Simple types

The rank-1 fragment: quantifiers stand only in front of the types that an environment declares.
Expressions then have simple types, without quantifiers, and a declared name may have a different
instance of its type wherever it occurs (`Simply`).

On the side of inference, the types in play are simple as well (`Ty.Simple`), except those of
declared names until their quantifiers are opened (`Ty.RankOne`). A simple type has no bound names, so
nothing can be captured, whatever names are used.
-/

namespace RankN

/-! ## Simple types and instances -/

namespace Nameless

/-- A type without quantifiers, built from names. -/
def Mono : Nameless → Prop
  | .const (.name _) => True
  | .arrow p q => p.Mono ∧ q.Mono
  | .app f a => f.Mono ∧ a.Mono
  | .bound _ | .all _ | .const _ => False

/-- The second type is the first with its leading quantifiers instantiated at simple types. -/
inductive Instance : Nameless → Nameless → Prop
  | mono {A} : A.Mono → Instance A A
  | all {body u τ} : u.Mono → Instance (body.instantiate 0 u) τ → Instance (.all body) τ

/-- The function type of several parameters. -/
def arrows (params : List Nameless) (result : Nameless) : Nameless := params.foldr arrow result

variable {A τ body : Nameless}

@[simp] theorem arrows_nil (τ : Nameless) : arrows [] τ = τ := rfl

@[simp] theorem arrows_cons (A : Nameless) (As : List Nameless) (τ : Nameless) :
    arrows (A :: As) τ = .arrow A (arrows As τ) := rfl

theorem Mono.closed (h : A.Mono) : A.Closed := by
  induction A with
  | bound i => exact h.elim
  | const c => trivial
  | all body ih => exact h.elim
  | arrow p q ihp ihq => exact ⟨ihp h.1, ihq h.2⟩
  | app f a ihf iha => exact ⟨ihf h.1, iha h.2⟩

theorem Mono.skolem_notMem (h : A.Mono) (id : Int) : Atom.skolem id ∉ A.atoms := by
  induction A with
  | bound i => exact h.elim
  | const c => cases c <;> simp_all [Mono]
  | all body ih => exact h.elim
  | arrow p q ihp ihq => simp [ihp h.1, ihq h.2]
  | app f a ihf iha => simp [ihf h.1, iha h.2]

theorem Instance.mono_right (h : Instance A τ) : τ.Mono := by
  induction h with
  | mono hA => exact hA
  | all _ _ ih => exact ih

/-- A simple type has no other instance. -/
theorem Mono.instance_iff (h : A.Mono) : Instance A τ ↔ A = τ := by
  constructor
  · rintro (_ | _)
    · rfl
    · exact h.elim
  · rintro rfl
    exact .mono h

theorem instance_all_iff : Instance (.all body) τ ↔ ∃ u : Nameless, u.Mono ∧ Instance (body.instantiate 0 u) τ := by
  constructor
  · rintro (h | ⟨hu, h⟩)
    · exact h.elim
    · exact ⟨_, hu, h⟩
  · rintro ⟨u, hu, h⟩
    exact .all hu h

end Nameless

open Nameless (Instance)

/-! ## Simple typing -/

/-- Simply typed expressions, where names may be declared with quantified types. -/
inductive Simply : Assumptions → Expr → Nameless → Prop
  | var {Γ x A τ} : Γ x = some A → Instance A τ → Simply Γ (.var x) τ
  | abs {Γ x e A B} : A.Mono → Simply (Function.update Γ x (some A)) e B →
      Simply Γ (.fn x e) (.arrow A B)
  | app {Γ f a A B} : Simply Γ f (.arrow A B) → Simply Γ a A → Simply Γ (.app f a) B
  | ann {Γ e t} : Simply Γ e t.nameless → Simply Γ (.ann e t) t.nameless

section

variable {Γ : Assumptions} {e f a : Expr} {x : String} {t : Ty} {τ A B : Nameless}

theorem Simply.mono (h : Simply Γ e τ) : τ.Mono := by
  induction h with
  | var _ h => exact h.mono_right
  | abs hA _ ih => exact ⟨hA, ih⟩
  | app _ _ ih _ => exact ih.2
  | ann _ ih => exact ih

theorem simply_var : Simply Γ (.var x) τ ↔ ∃ A, Γ x = some A ∧ Instance A τ := by
  constructor
  · rintro ⟨hx, h⟩
    exact ⟨_, hx, h⟩
  · rintro ⟨A, hx, h⟩
    exact .var hx h

theorem simply_fn : Simply Γ (.fn x e) τ ↔
    ∃ A B : Nameless, τ = .arrow A B ∧ A.Mono ∧ Simply (Function.update Γ x (some A)) e B := by
  constructor
  · rintro (_ | ⟨hA, h⟩)
    exact ⟨_, _, rfl, hA, h⟩
  · rintro ⟨A, B, rfl, hA, h⟩
    exact .abs hA h

theorem simply_app : Simply Γ (.app f a) τ ↔ ∃ A, Simply Γ f (.arrow A τ) ∧ Simply Γ a A := by
  constructor
  · rintro (_ | _ | ⟨hf, ha⟩)
    exact ⟨_, hf, ha⟩
  · rintro ⟨A, hf, ha⟩
    exact .app hf ha

theorem simply_ann : Simply Γ (.ann e t) τ ↔ τ = t.nameless ∧ Simply Γ e t.nameless := by
  constructor
  · rintro (_ | _ | _ | h)
    exact ⟨rfl, h⟩
  · rintro ⟨rfl, h⟩
    exact .ann h

/-- **Typing a spine.** Arguments have the types of the parameters of the head. -/
theorem simply_apps {args : List Expr} : Simply Γ (f.apps args) τ ↔
    ∃ As, List.Forall₂ (Simply Γ) args As ∧ Simply Γ f (Nameless.arrows As τ) := by
  induction args generalizing f with
  | nil => simp [Expr.apps]
  | cons a args ih =>
    show Simply Γ ((f.app a).apps args) τ ↔ _
    rw [ih]
    constructor
    · rintro ⟨As, hargs, h⟩
      obtain ⟨A, hf, ha⟩ := simply_app.1 h
      exact ⟨A :: As, .cons ha hargs, hf⟩
    · rintro ⟨As, hargs, h⟩
      cases hargs with
      | cons ha hargs => exact ⟨_, hargs, .app h ha⟩

end

/-! ## The fragment -/

namespace Ty

/-- A type without quantifiers, in which everything is known but what metavariables mean. -/
def Simple : Ty → Prop
  | .var _ | .mvar _ => True
  | .arrow _ p q => p.Simple ∧ q.Simple
  | .app _ f a => f.Simple ∧ a.Simple
  | .all .. | .skolem _ | .unknown .. | .absent => False

/-- A simple type with quantifiers in front. -/
def RankOne : Ty → Prop
  | .all _ _ body => body.RankOne
  | t => t.Simple

instance decidableSimple : DecidablePred Simple
  | .var _ | .mvar _ => inferInstanceAs (Decidable True)
  | .arrow _ p q => @instDecidableAnd _ _ (decidableSimple p) (decidableSimple q)
  | .app _ f a => @instDecidableAnd _ _ (decidableSimple f) (decidableSimple a)
  | .all .. | .skolem _ | .unknown .. | .absent => inferInstanceAs (Decidable False)

instance decidableRankOne : DecidablePred RankOne
  | .all _ _ body => decidableRankOne body
  | .var x => decidableSimple (.var x)
  | .mvar m => decidableSimple (.mvar m)
  | .arrow n p q => decidableSimple (.arrow n p q)
  | .app n f a => decidableSimple (.app n f a)
  | .skolem id => decidableSimple (.skolem id)
  | .unknown n k => decidableSimple (.unknown n k)
  | .absent => decidableSimple .absent

variable {t : Ty}

theorem simple_plain : t.plain.Simple ↔ t.Simple := by
  induction t with
  | arrow n p q ihp ihq => exact and_congr ihp ihq
  | app n f a ihf iha => exact and_congr ihf iha
  | _ => exact Iff.rfl

theorem Simple.rankOne (h : t.Simple) : t.RankOne := by
  cases t with
  | all => exact h.elim
  | _ => exact h

theorem rankOne_plain : t.plain.RankOne ↔ t.RankOne := by
  induction t with
  | all n x body ih => exact ih
  | _ => exact simple_plain

theorem Simple.replace (h : t.Simple) (x : String) (m : MVar) : (t.replace x (.mvar m)).Simple := by
  induction t with
  | var y => by_cases hy : y = x <;> simp [Ty.replace, hy, Simple]
  | arrow n p q ihp ihq => exact ⟨ihp h.1, ihq h.2⟩
  | app n f a ihf iha => exact ⟨ihf h.1, iha h.2⟩
  | all => exact h.elim
  | _ => exact h

theorem RankOne.replace (h : t.RankOne) (x : String) (m : MVar) :
    (t.replace x (.mvar m)).RankOne := by
  induction t with
  | all n y body ih =>
    by_cases hy : y = x
    · simpa [Ty.replace, hy] using h
    · simpa [Ty.replace, hy, RankOne] using ih h
  | _ => exact (Simple.replace h x m).rankOne

/-- Simple types are a class that inference does not leave. -/
theorem stable_simple : Ty.Stable Simple where
  mvar _ := trivial
  arrow := Iff.rfl
  app h := h
  atSkolem h := h.elim
  atMVar h := h.elim
  fill {t f} h hf := by
    induction t with
    | arrow n p q ihp ihq =>
      simp only [mvars, List.mem_append] at hf
      exact ⟨ihp h.1 fun m hm => hf m (.inl hm), ihq h.2 fun m hm => hf m (.inr hm)⟩
    | app n g a ihg iha =>
      simp only [mvars, List.mem_append] at hf
      exact ⟨ihg h.1 fun m hm => hf m (.inl hm), iha h.2 fun m hm => hf m (.inr hm)⟩
    | mvar m => exact hf m (by simp)
    | _ => exact h

/-- A simple type binds no name. -/
theorem Simple.named (h : t.Simple) : t.Named (fun _ => False) [] := by
  induction t with
  | var x => exact .inr id
  | arrow n p q ihp ihq => exact ⟨ihp h.1, ihq h.2⟩
  | app n f a ihf iha => exact ⟨ihf h.1, iha h.2⟩
  | mvar m => trivial
  | _ => exact h.elim

theorem Simple.skolem_notMem (h : t.Simple) {id : Int} : id ∉ t.skolems := by
  induction t with
  | arrow n p q ihp ihq => simp [ihp h.1, ihq h.2]
  | app n f a ihf iha => simp [ihf h.1, iha h.2]
  | skolem | all => exact h.elim
  | _ => simp

theorem Simple.complete (h : t.Simple) : t.Complete := by
  induction t with
  | arrow n p q ihp ihq => exact ⟨ihp h.1, ihq h.2⟩
  | app n f a ihf iha => exact ⟨ihf h.1, iha h.2⟩
  | var | mvar => trivial
  | _ => exact h.elim

theorem Simple.mono_read (h : t.Simple) {θ : MVar → Nameless} (hθ : ∀ m, (θ m).Mono) :
    (t.read θ []).Mono := by
  induction t with
  | var x => simp [Nameless.Mono]
  | arrow n p q ihp ihq => exact ⟨ihp h.1, ihq h.2⟩
  | app n f a ihf iha => exact ⟨ihf h.1, iha h.2⟩
  | mvar m => exact hθ m
  | _ => exact h.elim

/-- **Every rank-1 type has an instance.** -/
theorem RankOne.exists_instance (h : t.RankOne) {θ : MVar → Nameless} (hθ : ∀ m, (θ m).Mono) :
    ∃ τ, Instance (t.read θ []) τ := by
  induction hn : t.size using Nat.strong_induction_on generalizing t with
  | _ n ih =>
    cases t with
    | all k x body =>
      -- Any metavariable will do: it means a simple type.
      obtain ⟨m⟩ : Nonempty MVar := ⟨⟨0, 0, .empty⟩⟩
      have hlt : (body.replace x (.mvar m)).size < n := by
        rw [size_replace rfl, ← hn, size]
        omega
      have hbody : body.RankOne := h
      obtain ⟨τ, hτ⟩ := ih _ hlt (hbody.replace x m) rfl
      rw [read_replace (fun m => (hθ m).closed) (fun _ => rfl) (by simp)] at hτ
      exact ⟨τ, .all (hθ m) hτ⟩
    | _ => exact ⟨_, .mono (Simple.mono_read h hθ)⟩

end Ty

/-- Expressions of known forms, annotated with simple types. -/
def Expr.Simple : Expr → Prop
  | .var _ => True
  | .fn _ body => body.Simple
  | .app f a => f.Simple ∧ a.Simple
  | .ann e t => e.Simple ∧ t.Simple ∧ t.Ground
  | .unknown _ | .absent => False

instance decidableExprSimple : DecidablePred Expr.Simple
  | .var _ => inferInstanceAs (Decidable True)
  | .fn _ body => decidableExprSimple body
  | .app f a => @instDecidableAnd _ _ (decidableExprSimple f) (decidableExprSimple a)
  | .ann e _ => @instDecidableAnd _ _ (decidableExprSimple e) inferInstance
  | .unknown _ | .absent => inferInstanceAs (Decidable False)

theorem Expr.Simple.head {e : Expr} (h : e.Simple) : e.head.Simple := by
  induction e with
  | app f a ihf _ => exact ihf h.1
  | _ => exact h

theorem Expr.Simple.arg {e a : Expr} (h : e.Simple) (ha : a ∈ e.args) : a.Simple := by
  induction e with
  | app f b ihf _ =>
    rcases List.mem_append.1 ha with ha | ha
    · exact ihf h.1 ha
    · rw [List.mem_singleton.1 ha]
      exact h.2
  | _ => simp [Expr.args] at ha

theorem Expr.Simple.ground {e : Expr} (h : e.Simple) : e.Every Ty.Ground := by
  induction e with
  | fn x body ih => exact ih h
  | app f a ihf iha => exact List.forall_mem_append.2 ⟨ihf h.1, iha h.2⟩
  | ann e t ih => exact List.forall_mem_cons.2 ⟨h.2.2, ih h.1⟩
  | var x => simp [Expr.Every, Expr.annotations]
  | _ => exact h.elim

end RankN
