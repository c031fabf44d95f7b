import RankN.Context
import RankN.Proofs.Steps

/-!
# Failures are written down where they are found

In a context, inference writes its first failure down when it finds it, and then returns the error
from call to call. In a run alone, it stops with the rejection. The two are the same: to perform
inference in a context is to perform it in the run of the context, and to write down the rejection
afterwards, if there is one and the context has none (`Context.recorded`, `Context.infer_recorded`).

The reason is that no call of inference goes on after a failure, so at most one is found.
-/

namespace RankN.Context

variable {α β : Type}

/-- An action of inference on the run of a context. The rejection it stops with is written down. -/
def recorded (x : Infer α) : Session α := fun c =>
  match x c.run with
  | .ok a r => .ok a { c with run := r }
  | .error (.error rejection) r =>
    .error (.error rejection.error) ({ c with run := r }.record rejection)
  | .error (.fault f) r => .error (.fault f) { c with run := r }

/-! ## Writing down commutes with what inference is made of -/

theorem recorded_pure (a : α) : recorded (pure a) = pure a := rfl

theorem recorded_bind (x : Infer α) (f : α → Infer β) :
    recorded (x >>= f) = recorded x >>= fun a => recorded (f a) := by
  funext c
  simp only [recorded, bind, EStateM.bind]
  cases x c.run with
  | ok a r => rfl
  | error stop r => cases stop <;> rfl

theorem recorded_perform (x : StateM Run α) :
    recorded (Inferring.perform x) = Inferring.perform x := rfl

theorem recorded_fail (rejection : Rejection) :
    recorded (Inferring.fail rejection : Infer α) = Inferring.fail rejection := rfl

theorem recorded_fault (f : Fault) :
    recorded (Inferring.fault f : Infer α) = Inferring.fault f := rfl

theorem recorded_solving (e : Expr) (x : Solve α) :
    recorded (Inferring.solving e x) = Inferring.solving e x := by
  unfold Inferring.solving
  rw [recorded_bind, recorded_perform]
  refine bind_congr fun result => ?_
  rcases result with (error | f) | a
  · exact recorded_fail ⟨error, e⟩
  · exact recorded_fault f
  · exact recorded_pure a

theorem recorded_forM (l : List β) (f : β → Infer Unit) :
    recorded (l.forM f) = l.forM fun b => recorded (f b) := by
  induction l with
  | nil => rfl
  | cons b l ih =>
    simp only [List.forM_eq_forM, List.forM_cons] at ih ⊢
    rw [recorded_bind, ih]

theorem recorded_skolemizeWithin (e : Expr) (n : Nat) (scope : Scope) (t : Ty) :
    recorded (Inferring.skolemizeWithin e n scope t) = Inferring.skolemizeWithin e n scope t := by
  induction n generalizing scope t with
  | zero => exact recorded_fault .cyclic
  | succ n ih =>
    unfold Inferring.skolemizeWithin
    rw [recorded_bind, recorded_perform]
    refine bind_congr fun _ => ?_
    cases t with
    | mvar m =>
      simp only [recorded_bind, recorded_perform]
      refine bind_congr fun r => ?_
      cases r.table.solution? m with
      | some u => exact ih scope u
      | none => exact recorded_pure _
    | all k x body =>
      simp only [recorded_bind, recorded_perform]
      exact bind_congr fun c => bind_congr fun t => ih _ t
    | _ => exact recorded_pure _

theorem recorded_skolemize (e : Expr) (scope : Scope) (t : Ty) :
    recorded (Inferring.skolemize e scope t) = Inferring.skolemize e scope t := by
  unfold Inferring.skolemize
  rw [recorded_bind, recorded_perform]
  exact bind_congr fun r => recorded_skolemizeWithin e _ scope t

/-! ## Inference -/

/-- Checking an expression in a context is checking it in its run. -/
def CheckRecorded (e : Expr) : Prop :=
  ∀ names scope t, recorded (Inferring.check names scope e t) = Inferring.check names scope e t

/-- Synthesizing a type in a context is synthesizing it in its run. -/
def SynthRecorded (e : Expr) : Prop :=
  ∀ names scope, recorded (Inferring.synth names scope e) = Inferring.synth names scope e

theorem recorded_pending {args : List Expr} (hargs : ∀ a ∈ args, CheckRecorded a)
    (ps : Parameters args) (names : Names) (scope : Scope) :
    recorded (ps.pending.attach.forM fun o => Inferring.check names scope o.val.arg o.val.type) =
      ps.pending.attach.forM fun o => Inferring.check names scope o.val.arg o.val.type := by
  rw [recorded_forM]
  congr 1
  funext o
  exact hargs o.val.arg (ps.arg_mem o.property) names scope o.val.type

/-- An application: its head, its parameters, and what comes next. -/
theorem recorded_head {f a : Expr} (hhead : SynthRecorded (Expr.app f a).head) (names : Names)
    (scope : Scope) {k : Parameters (Expr.app f a).args → Ty → Infer α}
    {k' : Parameters (Expr.app f a).args → Ty → Session α}
    (hk : ∀ ps result, recorded (k ps result) = k' ps result) :
    recorded (do
      let ft ← Inferring.synth names scope (Expr.app f a).head
      let ps ← Inferring.perform (Parameters.take scope ft (Expr.app f a).args)
      let result ← Inferring.solving (.app f a) ps.answer
      k ps result) = (do
      let ft ← Inferring.synth names scope (Expr.app f a).head
      let ps ← Inferring.perform (Parameters.take scope ft (Expr.app f a).args)
      let result ← Inferring.solving (.app f a) ps.answer
      k' ps result) := by
  rw [recorded_bind, hhead]
  refine bind_congr fun ft => ?_
  rw [recorded_bind, recorded_perform]
  refine bind_congr fun ps => ?_
  rw [recorded_bind, recorded_solving]
  exact bind_congr fun result => hk ps result

theorem synth_recorded_step (e : Expr)
    (ih : ∀ e', e'.size < e.size → CheckRecorded e' ∧ SynthRecorded e') : SynthRecorded e := by
  intro names scope
  unfold Inferring.synth
  rw [recorded_bind, recorded_perform]
  refine bind_congr fun _ => ?_
  cases e with
  | var x =>
    simp only
    rcases names.find? x with f | (_ | t)
    · exact recorded_fault f
    · exact recorded_fail _
    · exact recorded_pure t
  | ann e t =>
    have hcheck := (ih e (by simp only [Expr.size]; omega)).1 names scope t
    cases t with
    | absent => exact recorded_fail _
    | _ => simp only [recorded_bind, hcheck, recorded_pure]
  | app f a =>
    refine recorded_head (ih _ (Expr.size_head_lt f a)).2 names scope fun ps result => ?_
    rw [recorded_bind, recorded_pending fun b hb => (ih b (Expr.size_lt_of_mem_args hb)).1]
    exact bind_congr fun _ => recorded_pure result
  | fn x body =>
    have hcheck := (ih body (by simp only [Expr.size]; omega)).1
    simp only [recorded_bind, recorded_perform]
    refine bind_congr fun param => bind_congr fun result => ?_
    rw [hcheck]
  | _ => exact recorded_fail _

theorem check_recorded_step (e : Expr) (hs : SynthRecorded e)
    (ih : ∀ e', e'.size < e.size → CheckRecorded e' ∧ SynthRecorded e') : CheckRecorded e := by
  intro names scope t
  unfold Inferring.check
  rw [recorded_bind, recorded_skolemize]
  refine bind_congr fun p => ?_
  obtain ⟨scope, t⟩ := p
  have hother : recorded (do
      let found ← Inferring.synth names scope e
      Inferring.solving e (subsume scope found t)) = (do
      let found ← Inferring.synth names scope e
      Inferring.solving e (subsume scope found t)) := by
    rw [recorded_bind, hs names scope]
    exact bind_congr fun found => recorded_solving e _
  cases e with
  | app f a =>
    refine recorded_head (ih _ (Expr.size_head_lt f a)).2 names scope fun ps result => ?_
    rw [recorded_bind, recorded_solving]
    exact bind_congr fun _ =>
      recorded_pending (fun b hb => (ih b (Expr.size_lt_of_mem_args hb)).1) ps names scope
  | fn x body =>
    cases t with
    | arrow k param result => exact (ih body (by simp only [Expr.size]; omega)).1 _ scope result
    | _ => exact hother
  | _ => exact hother

/-- **A context performs inference as its run does**, and writes the rejection down. -/
theorem infer_recorded (e : Expr) : CheckRecorded e ∧ SynthRecorded e :=
  infer_induction synth_recorded_step check_recorded_step e

end RankN.Context
