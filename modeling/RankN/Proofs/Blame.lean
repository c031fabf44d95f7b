import RankN.Proofs.Effects
import RankN.Proofs.Models

/-!
# Failures point into the term

An inference that fails says why, and at which expression. The context remembers both.

**Where.** The expression occurs in the term whose type was asked for (`Expr.Occurs`). An occurrence
comes with the names that functions bind around it.

**Why** (`Blames`). A variable without a type is not declared, and not bound around the occurrence
either. What is applied without being a function is the head of an application, and the arguments
that it is not applied to are the last ones. An expression without a rule is absent, of unknown kind,
or annotated with no type. All other errors are about types, and come from the solver.

A call blames an expression for what is known where the call is made, so what a call blames inside a
function is read with the name of that function bound. Main result: `infer_blames`.
-/

namespace RankN

open RankN.Action

/-! ## Where an expression occurs -/

/-- The first expression occurs in the second, under functions that bind the names of `bound`,
innermost first. -/
inductive Expr.Occurs : List String → Expr → Expr → Prop
  | here {e} : Occurs [] e e
  | body {bound e x body} : Occurs bound e body → Occurs (bound ++ [x]) e (.fn x body)
  | fn {bound e f a} : Occurs bound e f → Occurs bound e (.app f a)
  | arg {bound e f a} : Occurs bound e a → Occurs bound e (.app f a)
  | ann {bound e e' t} : Occurs bound e e' → Occurs bound e (.ann e' t)

namespace Expr

variable {e e' a : Expr} {bound : List String}

theorem Occurs.of_head (h : e'.Occurs bound e.head) : e'.Occurs bound e := by
  induction e with
  | app f a ihf _ => exact .fn (ihf h)
  | _ => exact h

theorem Occurs.of_arg (ha : a ∈ e.args) (h : e'.Occurs bound a) : e'.Occurs bound e := by
  induction e with
  | app f b ihf _ =>
    rw [args, List.mem_append, List.mem_singleton] at ha
    rcases ha with ha | rfl
    · exact .fn (ihf ha)
    · exact .arg h
  | _ => simp [args] at ha

end Expr

/-! ## What inference says -/

/-- What it means that an expression is rejected on the way of a call for `e`, where names have no
type as `Untyped` says. -/
def Blames (Untyped : String → Prop) (e : Expr) (rejection : Rejection) : Prop :=
  ∃ bound, rejection.invalid.Occurs bound e ∧
    match rejection.error with
    | .unbound x => rejection.invalid = .var x ∧ Untyped x ∧ x ∉ bound
    | .notFunction _ args =>
      (∃ f a, rejection.invalid = .app f a) ∧ args ≠ [] ∧ args <:+ rejection.invalid.args
    | .unsynthesizable e' => rejection.invalid = e' ∧ e'.Unruled
    | why => why.AboutTypes

/-- The name has no type. -/
def Names.Untyped (names : Names) (x : String) : Prop := names.lookup x = none

section

variable {names : Names} {scope : Scope} {e e' : Expr} {rejection : Rejection}

/-- What is blamed in a part of an expression is blamed in the expression, if no function is
between them. -/
theorem Blames.of_occurs {Untyped : String → Prop} (h : Blames Untyped e' rejection)
    (hocc : ∀ {bound} {e'' : Expr}, e''.Occurs bound e' → e''.Occurs bound e) :
    Blames Untyped e rejection := by
  obtain ⟨bound, hin, hwhy⟩ := h
  exact ⟨bound, hocc hin, hwhy⟩

/-- A name that has no type in the body of a function is not that of its parameter. -/
theorem Blames.of_body {x : String} {t : Ty} (h : Blames (names.insert x t).Untyped e rejection) :
    Blames names.Untyped (.fn x e) rejection := by
  obtain ⟨bound, hin, hwhy⟩ := h
  refine ⟨bound ++ [x], .body hin, ?_⟩
  cases hr : rejection.error with
  | unbound y =>
    simp only [hr, Names.Untyped, Names.lookup_insert] at hwhy ⊢
    obtain ⟨hinv, hlookup, hbound⟩ := hwhy
    have hyx : y ≠ x := by
      rintro rfl
      simp at hlookup
    refine ⟨hinv, by simpa [hyx] using hlookup, ?_⟩
    simp [hbound, hyx]
  | _ => simpa only [hr] using hwhy

theorem blames_types {Untyped : String → Prop} {why : TypeError} (h : why.AboutTypes) :
    Blames Untyped e ⟨why, e⟩ := by
  refine ⟨[], .here, ?_⟩
  cases why with
  | unbound | notFunction | unsynthesizable => exact h.elim
  | _ => exact h

theorem blames_args {Untyped : String → Prop} {f a : Expr} {why : TypeError}
    (h : why.AboutArgs (Expr.app f a).args) : Blames Untyped (.app f a) ⟨why, .app f a⟩ := by
  cases why with
  | notFunction t rest => exact ⟨[], .here, ⟨f, a, rfl⟩, h⟩
  | _ => exact blames_types h

theorem Names.untyped_of_find? {x : String} (h : names.find? x = .ok none) : names.Untyped x := by
  unfold Names.find? Locals.find? at h
  unfold Names.Untyped Names.lookup
  cases hl : Layer.find? names.locals x with
  | none =>
    rw [hl] at h
    simpa [bind, Except.bind, pure, Except.pure] using h
  | some t =>
    rw [hl] at h
    cases t <;> simp [bind, Except.bind, pure, Except.pure] at h

/-- Checking an expression blames a part of it. -/
def CheckBlames (e : Expr) : Prop :=
  ∀ names scope t, (check names scope e t).Reports (Blames names.Untyped e)

/-- Synthesizing a type for an expression blames a part of it. -/
def SynthBlames (e : Expr) : Prop :=
  ∀ names scope, (synth names scope e).Reports (Blames names.Untyped e)

theorem checkArgs_blames {args : List Expr} (hargs : ∀ a ∈ args, CheckBlames a)
    (hin : ∀ a ∈ args, a ∈ e.args) (params : List Ty) :
    (checkArgs names scope args params).Reports (Blames names.Untyped e) := by
  induction args generalizing params with
  | nil => exact reports_pure _
  | cons a args ih =>
    cases params with
    | nil => exact reports_pure _
    | cons p params =>
      rw [checkArgs_cons]
      simp only [List.forall_mem_cons] at hargs hin
      refine Reports.bind ((hargs.1 names scope p).mono fun _ h => ?_) fun _ =>
        ih hargs.2 hin.2 params
      exact h.of_occurs (Expr.Occurs.of_arg hin.1)

theorem synth_blames_step (e : Expr)
    (ih : ∀ e', e'.size < e.size → CheckBlames e' ∧ SynthBlames e') : SynthBlames e := by
  intro names scope
  have hother : e.Unruled → (synth names scope e).Reports (Blames names.Untyped e) := by
    intro h
    rw [synth_other names scope h]
    exact (reports_log _).bind fun _ => reports_error ⟨[], .here, rfl, h⟩
  cases e with
  | var x =>
    rw [synth_var]
    refine (reports_log _).bind fun _ => ?_
    split
    · exact reports_pure _
    · rename_i hx
      exact reports_error ⟨[], .here, rfl, Names.untyped_of_find? hx, by simp⟩
    · exact reports_fault _
  | fn x body =>
    rw [synth_fn]
    refine (reports_log _).bind fun _ => (reports_newMVar _).bind fun p =>
      (reports_newMVar _).bind fun q => ?_
    have hbody := (ih body (by simp only [Expr.size]; omega)).1
    exact ((hbody _ scope _).mono fun _ h => h.of_body).bind fun _ => reports_newArrow _ _
  | app f a =>
    rw [synth_app]
    refine (reports_log _).bind fun _ => ?_
    have hhead := (ih _ (Expr.size_head_lt f a)).2 names scope
    refine Reports.bind (hhead.mono fun _ h => h.of_occurs Expr.Occurs.of_head) fun ft => ?_
    refine ((takeAll_reports scope ft _).solving fun _ => blames_args).bind fun ps => ?_
    refine Reports.bind (checkArgs_blames (fun b hb => ?_) (fun _ hb => hb) ps.1) fun _ =>
      reports_pure _
    exact (ih b (Expr.size_lt_of_mem_args hb)).1
  | ann e' t =>
    by_cases ht : t = .absent
    · subst ht
      exact hother (.inr (.inr ⟨e', rfl⟩))
    · rw [synth_ann names scope e' ht]
      refine (reports_log _).bind fun _ => ?_
      have hinner := (ih e' (by simp only [Expr.size]; omega)).1 names scope t
      exact (hinner.mono fun _ h => h.of_occurs .ann).bind fun _ => reports_pure _
  | unknown k => exact hother (.inr (.inl ⟨k, rfl⟩))
  | absent => exact hother (.inl rfl)

theorem check_blames_step (e : Expr) (hs : SynthBlames e)
    (ih : ∀ e', e'.size < e.size → CheckBlames e' ∧ SynthBlames e') : CheckBlames e := by
  intro names scope t
  rw [check_eq]
  refine Reports.bind (reports_get.bind fun _ => skolemizeWithin_reports e _ scope t _) fun p => ?_
  obtain ⟨scope, t⟩ := p
  -- Every expression but an application, and a function against an arrow, is synthesized first.
  have hsub : (do
      let found ← synth names scope e
      solving e (subsume scope found t) : Infer Unit).Reports (Blames names.Untyped e) :=
    (hs names scope).bind fun found => (subsume_reports scope found t).solving fun _ => blames_types
  cases e with
  | fn x body =>
    cases t with
    | arrow k p q =>
      have hbody := (ih body (by simp only [Expr.size]; omega)).1
      exact (hbody _ scope q).mono fun _ h => h.of_body
    | _ => exact hsub
  | app f a =>
    have hhead := (ih _ (Expr.size_head_lt f a)).2 names scope
    refine Reports.bind (hhead.mono fun _ h => h.of_occurs Expr.Occurs.of_head) fun ft => ?_
    refine ((takeAll_reports scope ft _).solving fun _ => blames_args).bind fun ps => ?_
    refine ((subsume_reports scope ps.2 t).solving fun _ => blames_types).bind fun _ => ?_
    refine checkArgs_blames (fun b hb => ?_) (fun _ hb => hb) ps.1
    exact (ih b (Expr.size_lt_of_mem_args hb)).1
  | _ => exact hsub

/-- **Every call blames a part of its expression.** -/
theorem infer_calls_blame (e : Expr) : CheckBlames e ∧ SynthBlames e :=
  infer_induction synth_blames_step check_blames_step e

end

/-! ## What a context remembers -/

/-- No failure is remembered when the next inference starts. -/
def Context.Clear (c : Context) : Prop := c.used = true ∨ c.error = none ∧ c.invalid = .absent

theorem Context.Clear.reset {c : Context} (h : c.Clear) :
    c.reset.error = none ∧ c.reset.invalid = .absent := by
  unfold Context.reset
  split
  · exact ⟨rfl, rfl⟩
  · exact h.resolve_left ‹_›

theorem synthPruned_blames (env : Env) (e : Expr) :
    (Context.synthPruned env e).Reports (Blames (fun x => env.find? x = none) e) :=
  ((infer_calls_blame e).2 { env } .empty).bind fun t => reports_prune t

/-- **Failures are remembered, and point into the term.** If an inference succeeds, its context
remembers no failure. If it fails, the context remembers the very error that was returned, together
with an expression that occurs in the term. A variable without a type is the variable named, it is
not declared, and it occurs where no function binds it. If what is applied is no function, the
expression is an application, and the arguments named are the last ones of its arguments, at least
one. An expression without a rule is the one named, and it is absent, of unknown kind, or annotated
with no type. -/
theorem infer_blames (c : Context) (hc : c.Clear) (e : Expr) (env : Env) (he : e ≠ .absent)
    (henv : env ≠ []) :
    (∀ T c', c.infer e env = (.ok T, c') → c'.error = none ∧ c'.invalid = .absent) ∧
    ∀ why c', c.infer e env = (.error (.error why), c') →
      c'.error = some why ∧ Blames (fun x => env.find? x = none) e ⟨why, c'.invalid⟩ := by
  have hnone : (c.opened e env).error = none := hc.reset.1
  have hblames := synthPruned_blames env e (c.start e env)
  refine ⟨fun T c' h => ?_, fun why c' h => ?_⟩
  · rcases c.infer_cases he henv with ⟨T', r, -, h'⟩ | ⟨rejection, r, -, h'⟩ | ⟨f, r, -, h'⟩ <;>
      rw [h'] at h <;> cases h
    exact hc.reset
  · rcases c.infer_cases he henv with ⟨T', r, -, h'⟩ | ⟨rejection, r, hx, h'⟩ | ⟨f, r, -, h'⟩ <;>
      rw [h'] at h <;> cases h
    simp only [Context.record, hnone]
    exact ⟨trivial, (hblames.of_error hx).2⟩

/-- The parameter of a function has no type outside of it: what is blamed is the argument, although
the same variable occurs in the function too. -/
theorem infer_blames_argument :
    ({} : Context).Clear ∧
    ∃ c', ({} : Context).infer (.app (.fn "x" (.var "x")) (.var "x")) [[]] =
        (.error (.error (.unbound "x")), c') ∧
      c'.error = some (.unbound "x") ∧
      Blames (fun x => Env.find? [[]] x = none) (.app (.fn "x" (.var "x")) (.var "x"))
        ⟨.unbound "x", c'.invalid⟩ := by
  have hc : ({} : Context).Clear := .inr ⟨rfl, rfl⟩
  have hinfer : (({} : Context).infer (.app (.fn "x" (.var "x")) (.var "x")) [[]]).1 =
      .error (.error (.unbound "x")) := by decide +kernel
  exact ⟨hc, _, Prod.ext hinfer rfl,
    (infer_blames {} hc _ [[]] (by simp) (by simp)).2 _ _ (Prod.ext hinfer rfl)⟩

end RankN
