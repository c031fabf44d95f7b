import RankN.Proofs.Inference
import RankN.Proofs.Reachable
import RankN.Proofs.Termination

/-!
# Everything comes to an end

In an acyclic table no function runs for ever, whatever it is given: types with absent parts,
unknown types and expressions, metavariables of other runs.

**Functions that read types through the table** (resolving, pruning, substituting, looking for
obstacles) enter a solution by calling themselves. They are given a number of nested solutions to
enter, and say nothing if it runs out. That it does not run out is stated by iterating one level of
the function on an arbitrary `bottom`: after `Table.hops` levels the answer does not depend on it, so
the bottom is never asked.

**The other functions** are given a number of steps and stop with `Fault.cyclic` if it runs out. They
do not, as `RankN.Proofs.Termination` shows. Those that allocate metavariables need the run to be in
order and to have passed the metavariables they are given: a metavariable still to be allocated is in
nobody's hands.

Main result: `acyclic_terminates`.
-/

namespace RankN

open RankN.Action

/-! ## One level after another -/

namespace Table

variable {tb : Table} {t : Ty}

/-- **The bottom is not reached.** Let `F` relate its answers at a type if it is given related answers
at the solutions in that type. Then the answers after `Table.hops` levels are related. -/
theorem Acyclic.iterate_hops {α : Type} (ha : tb.Acyclic) {R : α → α → Prop}
    {F : (Ty → α) → Ty → α}
    (hF : ∀ f g t, (∀ m ∈ t.mvars, ∀ u, tb.solution? m = some u → R (f u) (g u)) →
      R (F f t) (F g t)) (f g : Ty → α) (t : Ty) : R (F^[tb.hops] f t) (F^[tb.hops] g t) := by
  have main : ∀ n t, tb.Within n t → R (F^[n + 1] f t) (F^[n + 1] g t) := by
    intro n
    induction n with
    | zero =>
      intro t ht
      apply hF
      intro m hm u hu
      rw [ht.unsolved hm] at hu
      cases hu
    | succ n ih =>
      intro t ht
      rw [Function.iterate_succ_apply' F (n + 1) f, Function.iterate_succ_apply' F (n + 1) g]
      apply hF
      intro m hm u hu
      exact ih u (ha.within_solution (ht m hm) hu)
  exact main tb.size t (tb.within_size t)

/-- One step along a chain of solutions, with `enter` for the others. -/
def resolveWith (tb : Table) (enter : Ty → Ty) : Ty → Ty
  | .mvar m =>
    match tb.solution? m with
    | some t => enter t
    | none => .mvar m
  | t => t

theorem resolveWithin_eq_iterate (tb : Table) (n : Nat) :
    tb.resolveWithin n = tb.resolveWith^[n] id := by
  funext t
  induction n generalizing t with
  | zero => cases t <;> rfl
  | succ n ih =>
    rw [Function.iterate_succ_apply']
    cases t with
    | mvar m =>
      simp only [resolveWithin, resolveWith]
      cases tb.solution? m with
      | none => rfl
      | some u => exact ih u
    | _ => rfl

/-- **Resolving comes to an end.** -/
theorem Acyclic.iterate_resolveWith (ha : tb.Acyclic) (bottom : Ty → Ty) (t : Ty) :
    tb.resolveWith^[tb.hops] bottom t = tb.resolve t := by
  rw [resolve, resolveWithin_eq_iterate]
  apply ha.iterate_hops (R := Eq)
  intro f g t h
  cases t with
  | mvar m =>
    simp only [resolveWith]
    cases hm : tb.solution? m with
    | none => rfl
    | some u => exact h m (by simp) u hm
  | _ => rfl

end Table

/-! ## Obstacles -/

section

variable {tb : Table} {m : MVar} {t : Ty}

theorem obstacleWithin_eq_iterate (tb : Table) (m : MVar) (n : Nat) :
    obstacleWithin tb m n = (obstacleWith tb m)^[n] fun _ => none := by
  induction n with
  | zero => rfl
  | succ n ih =>
    rw [Function.iterate_succ_apply', ← ih]
    rfl

theorem obstacleWith_congr {f g : Ty → Option Obstacle}
    (h : ∀ m' ∈ t.mvars, ∀ u, tb.solution? m' = some u → f u = g u) :
    obstacleWith tb m f t = obstacleWith tb m g t := by
  induction t with
  | all n x body ih => exact ih h
  | arrow n p q ihp ihq =>
    rw [obstacleWith, obstacleWith, ihp fun m' hm => h m' (by simp [hm]),
      ihq fun m' hm => h m' (by simp [hm])]
  | app n p q ihp ihq =>
    rw [obstacleWith, obstacleWith, ihp fun m' hm => h m' (by simp [hm]),
      ihq fun m' hm => h m' (by simp [hm])]
  | mvar m' =>
    simp only [obstacleWith]
    cases hs : tb.solution? m' with
    | none => rfl
    | some u => simp only [h m' (by simp) u hs]
  | _ => rfl

/-- **Looking for an obstacle comes to an end.** -/
theorem Table.Acyclic.iterate_obstacleWith (ha : tb.Acyclic) (m : MVar)
    (bottom : Ty → Option Obstacle) (t : Ty) :
    (obstacleWith tb m)^[tb.hops] bottom t = obstacle? tb m t := by
  rw [obstacle?, obstacleWithin_eq_iterate]
  exact ha.iterate_hops (F := obstacleWith tb m) (fun f g t h => obstacleWith_congr h) bottom _ t

end

/-! ## Substitution -/

section

variable {r : Run} {x : String} {new t : Ty}

theorem substWithin_eq_iterate (x : String) (new : Ty) (n : Nat) :
    substWithin x new n = (fun enter => substWith enter x new)^[n] fun t => pure t := by
  induction n with
  | zero => rfl
  | succ n ih =>
    rw [Function.iterate_succ_apply', ← ih]
    rfl

/-- The actions do the same wherever the table is `tb`, and leave the table as it is. -/
def SameOver (tb : Table) (f g : StateM Run Ty) : Prop :=
  ∀ r : Run, r.table = tb → f r = g r ∧ (f r).2.table = tb

theorem substWith_congr {tb : Table} {f g : Ty → StateM Run Ty}
    (h : ∀ m ∈ t.mvars, ∀ u, tb.solution? m = some u → SameOver tb (f u) (g u)) :
    SameOver tb (substWith f x new t) (substWith g x new t) := by
  induction t with
  | var y => exact fun r hr => ⟨rfl, hr⟩
  | all n y body ih =>
    intro r hr
    by_cases hy : y = x
    · subst hy
      rw [substWith_all_self, substWith_all_self]
      exact ⟨rfl, hr⟩
    · obtain ⟨hbody, htable⟩ := ih h r hr
      rw [substWith_all_of_ne n hy, substWith_all_of_ne n hy, ← hbody]
      exact ⟨rfl, htable⟩
  | arrow n p q ihp ihq =>
    intro r hr
    obtain ⟨hp, htp⟩ := ihp (fun m hm => h m (by simp [hm])) r hr
    obtain ⟨hq, htq⟩ := ihq (fun m hm => h m (by simp [hm])) _ htp
    rw [substWith_arrow, substWith_arrow, ← hp, ← hq]
    exact ⟨rfl, htq⟩
  | app n p q ihp ihq =>
    intro r hr
    obtain ⟨hp, htp⟩ := ihp (fun m hm => h m (by simp [hm])) r hr
    obtain ⟨hq, htq⟩ := ihq (fun m hm => h m (by simp [hm])) _ htp
    rw [substWith_app, substWith_app, ← hp, ← hq]
    exact ⟨rfl, htq⟩
  | mvar m =>
    intro r hr
    cases hs : r.table.solution? m with
    | none =>
      rw [substWith_mvar_none hs, substWith_mvar_none hs]
      exact ⟨rfl, hr⟩
    | some u =>
      rw [substWith_mvar_some hs, substWith_mvar_some hs]
      rw [hr] at hs
      exact h m (by simp) u hs r hr
  | skolem | unknown | absent => exact fun r hr => ⟨rfl, hr⟩

/-- **Substitution comes to an end.** -/
theorem Table.Acyclic.iterate_substWith (ha : r.table.Acyclic) (x : String) (new : Ty)
    (bottom : Ty → StateM Run Ty) (t : Ty) :
    (fun enter => substWith enter x new)^[r.table.hops] bottom t r = subst x new t r := by
  show _ = substWithin x new r.table.hops t r
  rw [substWithin_eq_iterate]
  have hsame := ha.iterate_hops (F := fun enter => substWith enter x new)
    (fun f g t h => substWith_congr h) bottom (fun t => pure t) t
  exact (hsame r rfl).1

end

/-! ## Pruning

Pruning writes into the table as it goes, so its levels are compared in tables that change. In all of
them solutions are nested no deeper than in the first. -/

section

variable {r : Run} {t : Ty} {n : Nat} {enter : Ty → StateM Run Ty}

theorem pruneWith_eq_pruneWithin
    (he : ∀ m u (r : Run), r.table.Acyclic → r.table.nesting m ≤ n → r.table.solution? m = some u →
      enter u r = pruneWithin n u r)
    (ha : r.table.Acyclic) (ht : r.table.Within n t) :
    pruneWith enter t r = pruneWithin (n + 1) t r := by
  -- Both go through the same runs, in which what is left is nested no deeper.
  have hspec : ∀ (p : Ty) (r : Run), r.table.Acyclic → r.table.Within n p →
      Pruned r p (pruneWithin (n + 1) p r) := fun p r ha hp =>
    pruneWithin_spec (n + 1) ha fun m hm => (hp m hm).trans (Nat.le_succ n)
  induction t generalizing r with
  | all k x body ih =>
    rw [pruneWithin, pruneWith_all, pruneWith_all, ih ha ht]
    rfl
  | arrow k p q ihp ihq =>
    have hp : r.table.Within n p := fun m hm => ht m (by simp [hm])
    have hsh := (hspec p r ha hp).shortens
    rw [pruneWithin, pruneWith_arrow, pruneWith_arrow, ihp ha hp,
      ihq (hsh.acyclic ha) (hsh.within fun m hm => ht m (by simp [hm]))]
    rfl
  | app k p q ihp ihq =>
    have hp : r.table.Within n p := fun m hm => ht m (by simp [hm])
    have hsh := (hspec p r ha hp).shortens
    rw [pruneWithin, pruneWith_app, pruneWith_app, ihp ha hp,
      ihq (hsh.acyclic ha) (hsh.within fun m hm => ht m (by simp [hm]))]
    rfl
  | mvar m =>
    rw [pruneWithin]
    cases hs : r.table.solution? m with
    | none => rw [pruneWith_mvar_none hs, pruneWith_mvar_none hs]
    | some u =>
      rw [pruneWith_mvar_some hs, pruneWith_mvar_some hs, he m u r ha (ht m (by simp)) hs]
  | _ => rfl

/-- **Pruning comes to an end.** -/
theorem Table.Acyclic.iterate_pruneWith (ha : r.table.Acyclic) (bottom : Ty → StateM Run Ty)
    (t : Ty) : pruneWith^[r.table.hops] bottom t r = prune t r := by
  have main : ∀ n t (r : Run), r.table.Acyclic → r.table.Within n t →
      pruneWith^[n + 1] bottom t r = pruneWithin (n + 1) t r := by
    intro n
    induction n with
    | zero =>
      intro t r ha ht
      apply pruneWith_eq_pruneWithin _ ha ht
      intro m u r _ hm hu
      have := Table.nesting_pos hu
      omega
    | succ n ih =>
      intro t r ha ht
      rw [Function.iterate_succ_apply']
      apply pruneWith_eq_pruneWithin _ ha ht
      intro m u r ha hm hu
      exact ih u r ha (ha.within_solution hm hu)
  exact main r.table.size t r ha (r.table.within_size t)

end

/-! ## The table stays acyclic

Unification, and what is built on it, prunes, substitutes and looks for obstacles in between. What is
said above applies there too, because the table of each run it comes to is acyclic. -/

section

variable {r : Run} {a b t : Ty} {m : MVar} {scope : Scope}

/-- However the action ends, it leaves an acyclic table. -/
def Action.KeepsAcyclic {ε α : Type} (x : Action ε α) (r : Run) : Prop :=
  x.Ensures r (fun _ r' => r'.table.Acyclic) fun _ r' => r'.table.Acyclic

theorem Action.Evolves.keepsAcyclic {ε α : Type} {E : Stop ε → Prop} {x : Action ε α}
    {Q : α → Run → Prop} (h : x.Evolves E r Q) : x.KeepsAcyclic r :=
  Ensures.mono h (fun _ _ h => h.1.inOrder.acyclic) fun _ _ h => h.1.inOrder.acyclic

theorem acyclic_prune (ha : r.table.Acyclic) (t : Ty) : (prune t r).2.table.Acyclic :=
  (prune_spec ha t).shortens.acyclic ha

theorem acyclic_subst (ha : r.table.Acyclic) (x : String) (new t : Ty) :
    (subst x new t r).2.table.Acyclic := by
  rw [(subst_restamped x new t r).table]
  exact ha

theorem acyclic_openAll (ha : r.table.Acyclic) (x : String) (t new : Ty) :
    (openAll x t new r).2.table.Acyclic := acyclic_subst ha x new t

theorem mismatch_keepsAcyclic (ha : r.table.Acyclic) (a b : Ty) :
    (mismatch a b : Solve Unit).KeepsAcyclic r := by
  unfold mismatch
  simp only [KeepsAcyclic, ensures_bind, ensures_lift, ensures_throw]
  exact acyclic_prune (acyclic_prune ha a) b

theorem settle_keepsAcyclic (ha : r.table.Acyclic) (hm : r.table.solution? m = none) (t : Ty) :
    (settle m t).KeepsAcyclic r := by
  refine ensures_settle (fun why _ => acyclic_prune ha t) fun hfree => ?_
  refine ensures_assign_of_unsolved hm (fun _ => ha) fun ho => ?_
  have hocc := ((obstacle?_eq_none ha hm).1 hfree).1
  exact ha.write ho fun hr => hocc (ha.mem_mvars_expand.2 ⟨hr, hm⟩)

/-- **Unification keeps tables acyclic**, wherever it is cut short. -/
theorem unifyWithin_keepsAcyclic (n : Nat) :
    (∀ (a b : Ty) (r : Run), r.table.Acyclic → (unifyWithin n a b).KeepsAcyclic r) ∧
    ∀ (m : MVar) (t : Ty) (r : Run), r.table.Acyclic → (solveWithin n m t).KeepsAcyclic r := by
  induction n with
  | zero => exact ⟨fun _ _ _ ha => ha, fun _ _ _ ha => ha⟩
  | succ n ih =>
    obtain ⟨hunify, hsolve⟩ := ih
    have both : ∀ (p p' q q' : Ty) (r : Run), r.table.Acyclic →
        (do unifyWithin n p p'; unifyWithin n q q' : Solve Unit).KeepsAcyclic r := by
      intro p p' q q' r ha
      exact ensures_bind.2
        ((hunify p p' r ha).mono (fun _ r₁ h₁ => hunify q q' r₁ h₁) fun _ _ h => h)
    refine ⟨fun a b r ha => ?_, fun m t r ha => ?_⟩
    · rw [← r.table_log (.unify a b)] at ha
      apply ensures_unifyWithin
      · exact fun _ => ha
      · exact fun _ p q _ p' q' _ _ => both p p' q q' _ ha
      · exact fun _ f x _ f' x' _ _ => both f f' x x' _ ha
      · intro k x t k' y u _ _
        have hc : (Run.newSkolem (Run.log (.unify a b) r).2).2.table.Acyclic := ha
        simp only [ensures_bind, ensures_lift]
        exact hunify _ _ _ (acyclic_openAll (acyclic_openAll hc x t _) y u _)
      · exact fun m _ => hsolve m b _ ha
      · exact fun m _ => hsolve m a _ ha
      · exact fun _ _ => mismatch_keepsAcyclic ha a b
    · rw [← r.table_log (.solve m t)] at ha
      apply ensures_solveWithin
      · exact fun _ => ha
      · exact fun u _ => hunify u t _ ha
      · exact fun _ u _ _ _ => hsolve m u _ ha
      · intro hm _ _
        rw [← r.table_log (.solve m t)] at hm
        exact settle_keepsAcyclic ha hm t

/-- Subsumption allocates metavariables, for which the run has to be in order. -/
theorem subsumeWithin_keepsAcyclic (n : Nat) (scope : Scope) (a b : Ty) (hr : r.InOrder) :
    (subsumeWithin n scope a b).KeepsAcyclic r := by
  induction n generalizing scope a b r with
  | zero => exact hr.acyclic
  | succ n ih =>
    have hr₁ := (hr.log (.subsume a b)).inOrder
    have hopen : ∀ {r : Run} (x : String) (new t : Ty), r.InOrder →
        (openAll x t new r).2.InOrder := fun x new t hr =>
      (hr.agrees (subst_restamped x new t _).agrees (stamps_le_subst x new t _)).inOrder
    apply ensures_subsumeWithin
    · intro k x t _
      simp only [ensures_bind, ensures_lift]
      exact ih _ _ _ (hopen x _ t hr₁.newSkolem.inOrder)
    · intro k x t _
      simp only [ensures_bind, ensures_lift]
      exact ih _ _ _ (hopen x _ t (hr₁.newMVar scope).inOrder)
    · intro _ _
      exact ensures_bind.2 (ensures_get.2 ((unifyWithin_keepsAcyclic _).1 a b _ hr₁.acyclic))

end

/-! ## Whole inferences -/

section

variable {r : Run} {t : Ty} {e : Expr}

theorem Parameters.take_ne_cyclic {scope : Scope} {args : List Expr}
    (h : (Parameters.takeAll scope t args).Finishes r) :
    (Parameters.take scope t args r).1.result ≠ .error (.fault .cyclic) := by
  simp only [Finishes, Parameters.takeAll, Parameters.answer, ensures_bind, ensures_lift] at h
  cases hr : (Parameters.take scope t args r).1.result with
  | error stop => simpa [hr] using h
  | ok result => simp

theorem Ty.stamp_lt_stampBound {m : MVar} (hm : m ∈ t.mvars) : m.stamp < t.stampBound := by
  induction t with
  | all n x body ih => exact (ih hm).trans_le (le_max_right _ _)
  | arrow n p q ihp ihq =>
    rw [Ty.mvars, List.mem_append] at hm
    simp only [Ty.stampBound]
    rcases hm with hm | hm
    · have := ihp hm
      omega
    · have := ihq hm
      omega
  | app n p q ihp ihq =>
    rw [Ty.mvars, List.mem_append] at hm
    simp only [Ty.stampBound]
    rcases hm with hm | hm
    · have := ihp hm
      omega
    · have := ihq hm
      omega
  | mvar k =>
    rw [Ty.mvars, List.mem_singleton] at hm
    subst hm
    exact Nat.lt_succ_self _
  | _ => simp [Ty.mvars] at hm

/-- A run whose stamps are above those in a type has passed its metavariables. -/
theorem Ty.passed_of_stampBound_le (h : t.stampBound ≤ r.stamps) : t.Passed r :=
  ⟨fun _ hm => .inl ((Ty.stamp_lt_stampBound hm).trans_le h), fun _ _ => trivial⟩

theorem Expr.stampBound_le_of_mem (h : t ∈ e.annotations) : t.stampBound ≤ e.stampBound := by
  induction e with
  | fn x body ih => exact ih h
  | app f a ihf iha =>
    rw [Expr.annotations, List.mem_append] at h
    rcases h with h | h
    · exact (ihf h).trans (le_max_left _ _)
    · exact (iha h).trans (le_max_right _ _)
  | ann e u ih =>
    rw [Expr.annotations, List.mem_cons] at h
    rcases h with rfl | h
    · exact le_max_right _ _
    · exact (ih h).trans (le_max_left _ _)
  | _ => simp [Expr.annotations] at h

theorem Env.every_stampBound_le (env : Env) : env.Every (·.stampBound ≤ env.stampBound) := by
  apply Env.every_of_declared
  intro layer hl d hd
  have hfold : ∀ (l : List Nat) (a : Nat), a ≤ l.foldl max a ∧ ∀ n ∈ l, n ≤ l.foldl max a := by
    intro l
    induction l with
    | nil => simp
    | cons n l ih =>
      intro a
      obtain ⟨hacc, hmem⟩ := ih (max a n)
      refine ⟨(le_max_left a n).trans hacc, List.forall_mem_cons.2 ⟨?_, hmem⟩⟩
      exact (le_max_right a n).trans hacc
  exact (hfold _ 0).2 _ (List.mem_map_of_mem (List.mem_flatten_of_mem hl hd))

/-- An inference starts in order: its context starts over, or its run is in order. -/
theorem Context.inOrder_start {c : Context} (hc : c.used = true ∨ c.run.InOrder) (e : Expr)
    (env : Env) : (c.start e env).InOrder := by
  have hreset : c.reset.run.InOrder := by
    unfold Context.reset
    split
    · have hempty : c.run.reset.Empty := ⟨rfl, rfl, rfl⟩
      exact Run.Valid.inOrder (P := Ty.Any) hempty.valid
    · exact hc.resolve_left ‹_›
  have he : c.reset.run.Evolves (c.start e env) :=
    hreset.agrees ⟨rfl, rfl, rfl⟩ (le_max_left _ _)
  exact he.inOrder

/-- The run in which an inference starts has passed all metavariables that it is given. -/
theorem Context.synth_evolves {c : Context} (hc : c.used = true ∨ c.run.InOrder) (e : Expr)
    (env : Env) : (synth { env } .empty e).Evolves Stop.inTime (c.start e env) fun t r' =>
      t.Passed r' := by
  have hstamps : max c.reset.run.stamps (max e.stampBound env.stampBound) =
      (c.start e env).stamps := rfl
  have hnames : Names.Every (·.Passed (c.start e env)) { env } := by
    refine ⟨fun x t h => by simp [Layer.find?] at h, fun x t h => ?_⟩
    have := env.every_stampBound_le x t h
    exact Ty.passed_of_stampBound_le (by omega)
  have hexpr : e.Every (·.Passed (c.start e env)) := by
    intro t ht
    have := Expr.stampBound_le_of_mem ht
    exact Ty.passed_of_stampBound_le (by omega)
  exact (infer_evolves e).2 { env } .empty _ (Context.inOrder_start hc e env) hnames hexpr

/-- **Inference comes to an end**, whatever it is given, and leaves an acyclic table. -/
theorem Context.infer_finishes {c : Context} (hc : c.used = true ∨ c.run.InOrder) (e : Expr)
    (env : Env) : (c.infer e env).1 ≠ .error (.fault .cyclic) ∧
      (c.infer e env).2.run.table.Acyclic := by
  have hstart : (c.start e env).table.Acyclic := (Context.inOrder_start hc e env).acyclic
  have hsynth : (Context.synthPruned env e).Ensures (c.start e env)
      (fun _ r' => r'.table.Acyclic) fun stop r' => stop.inTime ∧ r'.table.Acyclic := by
    apply ensures_bind.2
    apply Ensures.mono (Context.synth_evolves hc e env)
    · exact fun t r h => ensures_lift.2 (acyclic_prune h.1.inOrder.acyclic t)
    · exact fun stop r h => ⟨h.2, h.1.inOrder.acyclic⟩
  by_cases he : e = .absent
  · simp only [infer, he, if_true]
    exact ⟨by simp, hstart⟩
  by_cases henv : env = []
  · simp only [infer, he, henv, if_true, if_false]
    exact ⟨by simp, hstart⟩
  rcases c.infer_cases he henv with ⟨T, r, hx, h⟩ | ⟨rejection, r, hx, h⟩ | ⟨f, r, hx, h⟩
  · rw [h]
    exact ⟨by simp, hsynth.of_ok hx⟩
  · rw [h, Context.run_record]
    exact ⟨by simp, (hsynth.of_error hx).2⟩
  · rw [h]
    refine ⟨fun hf => ?_, (hsynth.of_error hx).2⟩
    cases hf
    exact (hsynth.of_error hx).1 rfl

end

/-- **Termination.** In an acyclic table, resolving, pruning, substituting and looking for obstacles
need not enter more nested solutions than `Table.hops`, whatever is done at the bottom; and unifying
and solving have enough steps. So have subsumption, collecting parameters, checking and synthesis,
which allocate metavariables, if the run has passed all metavariables in play. So an inference always
comes to an end. However one of these calls ends, or wherever it is cut short, the table it leaves is
acyclic, so none of the calls nested in it enters too many solutions either. -/
theorem acyclic_terminates {r : Run} (ha : r.table.Acyclic) :
    (∀ bottom t, r.table.resolveWith^[r.table.hops] bottom t = r.table.resolve t) ∧
    (∀ bottom t, pruneWith^[r.table.hops] bottom t r = prune t r ∧
      (prune t r).2.table.Acyclic) ∧
    (∀ x new bottom t,
      (fun enter => substWith enter x new)^[r.table.hops] bottom t r = subst x new t r ∧
      (subst x new t r).2.table.Acyclic) ∧
    (∀ m bottom t, (obstacleWith r.table m)^[r.table.hops] bottom t = obstacle? r.table m t) ∧
    (∀ a b, (unify a b).Finishes r ∧ ∀ n, (unifyWithin n a b).KeepsAcyclic r) ∧
    (∀ m t, (solve m t).Finishes r ∧ ∀ n, (solveWithin n m t).KeepsAcyclic r) ∧
    (r.InOrder →
      (∀ scope a b, (subsume scope a b).Finishes r ∧
        ∀ n, (subsumeWithin n scope a b).KeepsAcyclic r) ∧
      (∀ scope t args, t.Passed r →
        (Parameters.take scope t args r).1.result ≠ .error (.fault .cyclic) ∧
        (Parameters.take scope t args r).2.table.Acyclic) ∧
      ∀ names scope e, names.Every (·.Passed r) → e.Every (·.Passed r) →
        (∀ t, t.Passed r → (check names scope e t).Finishes r ∧
          (check names scope e t).KeepsAcyclic r) ∧
        (synth names scope e).Finishes r ∧ (synth names scope e).KeepsAcyclic r) ∧
    ∀ c : Context, c.used = true ∨ c.run.InOrder →
      ∀ e env, (c.infer e env).1 ≠ .error (.fault .cyclic) ∧
        (c.infer e env).2.run.table.Acyclic := by
  refine ⟨ha.iterate_resolveWith, fun bottom t => ⟨ha.iterate_pruneWith bottom t, acyclic_prune ha t⟩,
    fun x new bottom t => ⟨ha.iterate_substWith x new bottom t, acyclic_subst ha x new t⟩,
    ha.iterate_obstacleWith, fun a b => ⟨unify_finishes ha a b, fun n => ?_⟩,
    fun m t => ⟨solve_finishes ha m t, fun n => ?_⟩, fun hr => ⟨?_, ?_, ?_⟩,
    fun c hc => Context.infer_finishes hc⟩
  · exact (unifyWithin_keepsAcyclic n).1 a b r ha
  · exact (unifyWithin_keepsAcyclic n).2 m t r ha
  · exact fun scope a b => ⟨subsume_finishes hr a b, fun n => subsumeWithin_keepsAcyclic n scope a b hr⟩
  · intro scope t args ht
    have htake : (Parameters.takeAll scope t args).Evolves Stop.inTime r _ :=
      takeAll_evolves args hr ht
    exact ⟨Parameters.take_ne_cyclic htake.finishes, Parameters.ensures_takeAll_run htake.keepsAcyclic⟩
  · intro names scope e hnames hexpr
    refine ⟨fun t ht => ?_, ?_⟩
    · have hcheck := (infer_evolves e).1 names scope t r hr hnames hexpr ht
      exact ⟨hcheck.finishes, hcheck.keepsAcyclic⟩
    · have hsynth := (infer_evolves e).2 names scope r hr hnames hexpr
      exact ⟨hsynth.finishes, hsynth.keepsAcyclic⟩

/-- With `?0 := ?1` and `?1 := int`, pruning `?0` enters two solutions. Unifying it with a type that
has an absent part and a metavariable of no run comes to an end, and so does checking an expression
with an absent part against that metavariable. -/
theorem acyclic_terminates_of_chain :
    let m : MVar := ⟨3, 0, .empty⟩
    let k : MVar := ⟨4, 1, .empty⟩
    let other : MVar := ⟨0, 7, .empty⟩
    let r := (Operation.solve k (.var "int")).run ((Operation.solve m (.mvar k)).run
      ((Operation.newMVar .empty).run ((Operation.newMVar .empty).run {})))
    r.table.solution? m = some (.mvar k) ∧ r.table.solution? k = some (.var "int") ∧
      (∀ bottom, pruneWith^[3] bottom (.mvar m) r = prune (.mvar m) r) ∧
      ((unify (.mvar m) (.arrow 0 (.mvar other) .absent)).Finishes r ∧
        (unifyWithin 2 (.mvar m) (.arrow 0 (.mvar other) .absent)).KeepsAcyclic r) ∧
      (check { env := [[]] } .empty (.fn "x" (.app (.var "x") .absent)) (.mvar other)).Finishes r := by
  intro m k other r
  have hreach : Reachable r := by
    have h₀ : Reachable {} := .empty ⟨rfl, rfl, rfl⟩
    have h₁ := h₀.step (.newMVar .empty) (show Scope.Over _ _ by decide)
    have h₂ := h₁.step (.newMVar .empty) (show Scope.Over _ _ by decide)
    have h₃ := h₂.step (.solve m (.mvar k)) (show _ ∧ Ty.Over _ _ by decide)
    exact h₃.step (.solve k (.var "int")) (show _ ∧ Ty.Over _ _ by decide)
  have hsol : r.table.solution? m = some (.mvar k) ∧ r.table.solution? k = some (.var "int") := by
    decide
  have hhops : r.table.hops = 3 := by decide
  have hother : (Ty.mvar other).Passed r := by decide
  have hin := hreach.valid.inOrder
  clear_value r
  obtain ⟨-, hprune, -, -, hunify, -, hinfer, -⟩ := acyclic_terminates hin.acyclic
  rw [hhops] at hprune
  have hnames : Names.Every (·.Passed r) { env := [[]] } :=
    ⟨fun x t h => by simp [Layer.find?] at h, fun x t h => by simp [Env.find?, Layer.find?] at h⟩
  have hexpr : Expr.Every (·.Passed r) (.fn "x" (.app (.var "x") .absent)) := by
    simp [Expr.Every, Expr.annotations]
  refine ⟨hsol.1, hsol.2, fun bottom => (hprune bottom (.mvar m)).1,
    ⟨(hunify _ _).1, (hunify _ _).2 2⟩, ?_⟩
  exact (((hinfer hin).2.2 { env := [[]] } .empty _ hnames hexpr).1 (.mvar other) hother).1

end RankN
