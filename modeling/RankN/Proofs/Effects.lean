import RankN.Proofs.Pruning
import RankN.Proofs.Steps
import RankN.Proofs.Substitution
import Mathlib.Logic.Relation

/-!
# What actions do to any run

Nothing is assumed here of the run in which an action starts, or of what the action is given: the
table may be cyclic, and metavariables may be of other runs. Still not everything can happen.

**Changes** (`Run.Change`). An action records events, draws stamps, counts skolem constants, adds slots
for new metavariables, and writes slots. It does these things one after another and nothing else, so
what each of them keeps is kept by every action.

**Errors.** Solving a metavariable and comparing types fails for reasons that have to do with types
(`TypeError.AboutTypes`). Where parameters are taken, there may also be too few of them
(`TypeError.AboutArgs`).

`x.Reports P` says both: `x` changes runs step by step, and `P` holds of the error with which it
stops.
-/

namespace RankN

open RankN.Action Relation

/-! ## Changes of a run -/

/-- One change of a run. -/
inductive Run.Change : Run → Run → Prop
  | log (e : Event) (r : Run) : Change r (Run.log e r).2
  | stamps {r : Run} {n : Nat} : r.stamps ≤ n → Change r { r with stamps := n }
  | newSkolem (r : Run) : Change r (Run.newSkolem r).2
  | newMVar (scope : Scope) (r : Run) : Change r (Run.newMVar scope r).2
  | write (m : MVar) (t : Ty) (r : Run) : Change r { r with table := r.table.write m t }

/-- The changes lead from the first run to the second. -/
abbrev Run.Changes : Run → Run → Prop := ReflTransGen Run.Change

theorem Run.changes_freshStamp (r : Run) : r.Changes { r with stamps := r.stamps + 1 } :=
  .single (.stamps (Nat.le_succ _))

theorem subst_changes (x : String) (new t : Ty) (r : Run) : r.Changes (subst x new t r).2 := by
  have hle := stamps_le_subst x new t r
  obtain ⟨n, hn⟩ := subst_restamped x new t r
  rw [hn] at hle ⊢
  exact .single (.stamps hle)

theorem pruneWith_changes {enter : Ty → StateM Run Ty} (he : ∀ u (r : Run), r.Changes (enter u r).2)
    (t : Ty) (r : Run) : r.Changes (pruneWith enter t r).2 := by
  induction t generalizing r with
  | var | skolem | unknown | absent => exact .refl
  | all n x body ih =>
    rw [pruneWith_all]
    split
    · exact ih r
    · exact (ih r).trans (Run.changes_freshStamp _)
  | arrow n p q ihp ihq =>
    rw [pruneWith_arrow]
    split
    · exact (ihp r).trans (ihq _)
    · exact ((ihp r).trans (ihq _)).trans (Run.changes_freshStamp _)
  | app n f a ihf iha =>
    rw [pruneWith_app]
    split
    · exact (ihf r).trans (iha _)
    · exact ((ihf r).trans (iha _)).trans (Run.changes_freshStamp _)
  | mvar m =>
    cases hs : r.table.solution? m with
    | none =>
      rw [pruneWith_mvar_none hs]
    | some u =>
      rw [pruneWith_mvar_some hs]
      exact (he u r).tail (.write m _ _)

theorem prune_changes (t : Ty) (r : Run) : r.Changes (prune t r).2 := by
  have main : ∀ n (t : Ty) (r : Run), r.Changes (pruneWithin n t r).2 := by
    intro n
    induction n with
    | zero => exact fun _ _ => .refl
    | succ n ih => exact pruneWith_changes ih
  exact main _ t r

/-! ## Errors -/

/-- The error is about types, not about an expression. -/
def TypeError.AboutTypes : TypeError → Prop
  | .mismatch .. | .escape .. | .notAllocated _ | .absentSolution _ | .alreadySolved _ => True
  | _ => False

/-- The error is about types, or there are no parameters for the last ones of the arguments. -/
def TypeError.AboutArgs (args : List Expr) : TypeError → Prop
  | .notFunction _ rest => rest ≠ [] ∧ rest <:+ args
  | why => why.AboutTypes

theorem TypeError.AboutTypes.aboutArgs {why : TypeError} (h : why.AboutTypes) (args : List Expr) :
    why.AboutArgs args := by
  cases why with
  | notFunction => exact h.elim
  | _ => exact h

/-- What is said of the error, if there is one. -/
def Stop.Says {ε : Type} (P : ε → Prop) : Stop ε → Prop
  | .error why => P why
  | .fault _ => True

namespace Action

variable {ε α β : Type} {x : Action ε α} {f : α → Action ε β} {P P' : ε → Prop} {r r₁ : Run}

/-- Whatever run the action starts from, it changes it step by step, and `P` holds of the error that
it stops with. -/
def Reports (x : Action ε α) (P : ε → Prop) : Prop :=
  ∀ r, x.Ensures r (fun _ r' => r.Changes r') fun stop r' => r.Changes r' ∧ stop.Says P

theorem Reports.after (h : x.Reports P) (hs : r.Changes r₁) :
    x.Ensures r₁ (fun _ r' => r.Changes r') fun stop r' => r.Changes r' ∧ stop.Says P :=
  (h r₁).mono (fun _ _ h => hs.trans h) fun _ _ h => ⟨hs.trans h.1, h.2⟩

theorem Reports.mono (h : x.Reports P) (hP : ∀ why, P why → P' why) : x.Reports P' := by
  intro r
  refine (h r).mono (fun _ _ h => h) fun stop _ hs => ⟨hs.1, ?_⟩
  cases stop with
  | error why => exact hP why hs.2
  | fault f => trivial

theorem Reports.bind (hx : x.Reports P) (hf : ∀ a, (f a).Reports P) : (x >>= f).Reports P :=
  fun r => ensures_bind.2 ((hx r).mono (fun a _ hs => (hf a).after hs) fun _ _ h => h)

theorem reports_pure (a : α) : (pure a : Action ε α).Reports P := fun _ => .refl

theorem reports_get : (get : Action ε Run).Reports P := fun _ => .refl

theorem reports_fault (f : Fault) : (throw (.fault f) : Action ε α).Reports P :=
  fun _ => ⟨.refl, trivial⟩

theorem reports_error {why : ε} (h : P why) : (throw (.error why) : Action ε α).Reports P :=
  fun _ => ⟨.refl, h⟩

theorem reports_log (e : Event) : (liftM (Run.log e) : Action ε Unit).Reports P :=
  fun r => .single (.log e r)

theorem reports_newSkolem : (liftM Run.newSkolem : Action ε Int).Reports P :=
  fun r => .single (.newSkolem r)

theorem reports_newMVar (scope : Scope) : (liftM (Run.newMVar scope) : Action ε MVar).Reports P :=
  fun r => .single (.newMVar scope r)

theorem reports_newArrow (p q : Ty) : (liftM (Run.newArrow p q) : Action ε Ty).Reports P :=
  fun r => r.changes_freshStamp

theorem reports_openAll (x : String) (body new : Ty) :
    (liftM (openAll x body new) : Action ε Ty).Reports P := fun r => subst_changes x new body r

theorem reports_prune (t : Ty) : (liftM (prune t) : Action ε Ty).Reports P :=
  fun r => prune_changes t r

end Action

/-! ## The solver -/

theorem mismatch_reports {α : Type} (a b : Ty) :
    (mismatch a b : Solve α).Reports TypeError.AboutTypes :=
  (reports_prune a).bind fun _ => (reports_prune b).bind fun _ => reports_error trivial

theorem assign_reports (m : MVar) (t : Ty) : (assign m t).Reports TypeError.AboutTypes := by
  intro r
  unfold Ensures assign
  split_ifs
  · exact ⟨.refl, trivial⟩
  · exact ⟨.refl, trivial⟩
  · exact ⟨.refl, trivial⟩
  · exact .single (.write m t r)

theorem settle_reports (m : MVar) (t : Ty) : (settle m t).Reports TypeError.AboutTypes := fun r =>
  ensures_settle (fun _ _ => ⟨prune_changes t r, trivial⟩) fun _ => assign_reports m t r

theorem unifyWithin_reports (n : Nat) :
    (∀ a b, (unifyWithin n a b).Reports TypeError.AboutTypes) ∧
    ∀ m t, (solveWithin n m t).Reports TypeError.AboutTypes := by
  induction n with
  | zero =>
    refine ⟨fun a b => ?_, fun m t => ?_⟩
    · rw [unifyWithin]
      exact reports_fault _
    · rw [solveWithin]
      exact reports_fault _
  | succ n ih =>
    refine ⟨fun a b r => ?_, fun m t r => ?_⟩
    · have hlog : r.Changes (Run.log (.unify a b) r).2 := .single (.log _ r)
      apply ensures_unifyWithin
      · exact fun _ => hlog
      · exact fun k p q k' p' q' _ _ => ((ih.1 p p').bind fun _ => ih.1 q q').after hlog
      · exact fun k f x k' f' x' _ _ => ((ih.1 f f').bind fun _ => ih.1 x x').after hlog
      · intro k x t k' y u _ _
        refine Reports.after ?_ hlog
        refine reports_newSkolem.bind fun c => (reports_openAll _ _ _).bind fun t' => ?_
        exact (reports_openAll _ _ _).bind fun u' => ih.1 t' u'
      · exact fun m _ => (ih.2 m b).after hlog
      · exact fun m _ => (ih.2 m a).after hlog
      · exact fun _ _ => (mismatch_reports a b).after hlog
    · have hlog : r.Changes (Run.log (.solve m t) r).2 := .single (.log _ r)
      apply ensures_solveWithin
      · exact fun _ => hlog
      · exact fun u _ => (ih.1 u t).after hlog
      · exact fun m' u _ _ _ => (ih.2 m u).after hlog
      · exact fun _ _ _ => (settle_reports m t).after hlog

theorem unify_reports (a b : Ty) : (unify a b).Reports TypeError.AboutTypes :=
  reports_get.bind fun _ => (unifyWithin_reports _).1 a b

theorem solve_reports (m : MVar) (t : Ty) : (solve m t).Reports TypeError.AboutTypes :=
  reports_get.bind fun _ => (unifyWithin_reports _).2 m t

theorem subsumeWithin_reports (n : Nat) (scope : Scope) (a b : Ty) :
    (subsumeWithin n scope a b).Reports TypeError.AboutTypes := by
  induction n generalizing scope a b with
  | zero =>
    rw [subsumeWithin]
    exact reports_fault _
  | succ n ih =>
    intro r
    have hlog : r.Changes (Run.log (.subsume a b) r).2 := .single (.log _ r)
    apply ensures_subsumeWithin
    · intro k x t _
      refine Reports.after ?_ hlog
      exact reports_newSkolem.bind fun c => (reports_openAll _ _ _).bind fun t' => ih _ a t'
    · intro k x t _
      refine Reports.after ?_ hlog
      exact (reports_newMVar scope).bind fun m => (reports_openAll _ _ _).bind fun t' => ih _ t' b
    · exact fun _ _ => (unify_reports a b).after hlog

theorem subsume_reports (scope : Scope) (a b : Ty) :
    (subsume scope a b).Reports TypeError.AboutTypes :=
  reports_get.bind fun _ => subsumeWithin_reports _ scope a b

theorem exposeMVar_reports (m : MVar) : (exposeMVar m).Reports TypeError.AboutTypes := by
  refine (reports_newMVar _).bind fun p => (reports_newMVar _).bind fun q => ?_
  refine (reports_newArrow _ _).bind fun t => ?_
  exact (assign_reports m t).bind fun _ => reports_pure _

theorem exposeWithin_reports (scope : Scope) {args : List Expr} (hargs : args ≠ []) (n : Nat)
    (t : Ty) : (exposeWithin scope args n t).Reports (TypeError.AboutArgs args) := by
  induction n generalizing t with
  | zero =>
    rw [exposeWithin]
    exact reports_fault _
  | succ n ih =>
    intro r
    apply ensures_exposeWithin
    · intro k x body _
      refine Reports.bind (reports_newMVar scope) (fun m => ?_) r
      exact (reports_openAll _ _ _).bind fun t' => ih t'
    · exact fun _ _ _ _ => .refl
    · exact fun m u _ _ => ih u r
    · exact fun m _ _ => (exposeMVar_reports m).mono (fun _ h => h.aboutArgs args) r
    · exact fun _ _ _ => ⟨prune_changes t r, hargs, List.suffix_rfl⟩

/-- Where parameters cannot be taken for all arguments, none was taken for the last ones. -/
theorem takeAll_reports (scope : Scope) (t : Ty) (args : List Expr) :
    (Parameters.takeAll scope t args).Reports (TypeError.AboutArgs args) := by
  induction args generalizing t with
  | nil => exact reports_pure _
  | cons arg args ih =>
    rw [Parameters.takeAll_cons]
    have hexpose : (expose scope (arg :: args) t).Reports (TypeError.AboutArgs (arg :: args)) :=
      reports_get.bind fun _ => exposeWithin_reports scope (by simp) _ t
    refine hexpose.bind fun ex => Reports.bind ((ih ex.rest).mono fun why h => ?_) fun _ =>
      reports_pure _
    cases why with
    | notFunction t rest => exact ⟨h.1, h.2.trans (List.suffix_cons arg args)⟩
    | _ => exact h

theorem Action.Reports.solving {α : Type} {x : Solve α} {e : Expr} {P : TypeError → Prop}
    {P' : Rejection → Prop} (h : x.Reports P) (hP : ∀ why, P why → P' ⟨why, e⟩) :
    (RankN.solving e x).Reports P' := by
  intro r
  apply ensures_solving.2
  refine (h r).mono (fun _ _ h => h) fun stop _ hs => ⟨hs.1, ?_⟩
  cases stop with
  | error why => exact hP why hs.2
  | fault f => trivial

theorem skolemizeWithin_reports (e : Expr) (n : Nat) (scope : Scope) (t : Ty)
    (P : Rejection → Prop) : (skolemizeWithin e n scope t).Reports P := by
  induction n generalizing scope t with
  | zero =>
    rw [skolemizeWithin_zero]
    exact reports_fault _
  | succ n ih =>
    intro r
    have hlog : r.Changes (Run.log (.check e t) r).2 := .single (.log _ r)
    apply ensures_skolemizeWithin
    · exact fun m u _ _ => (ih scope u).after hlog
    · intro k x body _
      refine Reports.after ?_ hlog
      exact reports_newSkolem.bind fun c => (reports_openAll _ _ _).bind fun t' => ih _ t'
    · exact fun _ _ => hlog

end RankN
