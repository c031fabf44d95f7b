import RankN.Proofs.Depth
import RankN.Proofs.Evolution
import Mathlib.Tactic.Ring

/-!
# The steps suffice

The functions of the solver recurse on a number of steps that they are given, and stop with
`Fault.cyclic` when it runs out. In an acyclic table it never does.

**Unification.** A call descends into its two types, read through the table, so without solving
anything it takes at most twice as many nested steps as the types are deep. Each metavariable that is
solved on the way makes types deeper, by at most the depth `H` of the deepest type in play, so `H` at
most doubles; but it also leaves one metavariable less to solve. So `H * 2 ^ k`, where `k` is the
number of metavariables still to be solved, does not grow (`Table.Grown`), and it pays for all the
steps to come.
-/

namespace RankN

open RankN.Action

/-- There is a reason to stop, other than that there are no more steps. -/
abbrev Stop.inTime {ε : Type} (stop : Stop ε) : Prop := stop ≠ .fault .cyclic

namespace Action

variable {ε α β : Type} {x : Action ε α} {r : Run} {Q : α → Run → Prop}

/-- The action does not stop for lack of steps. -/
def Finishes (x : Action ε α) (r : Run) : Prop :=
  x.Ensures r (fun _ _ => True) fun stop _ => stop.inTime

theorem Finishes.evolves (h : x.Finishes r) (he : x.Evolves Stop.any r Q) :
    x.Evolves Stop.inTime r Q :=
  (Ensures.and h he).mono (fun _ _ h => h.2) fun _ _ h => ⟨h.2.1, h.1⟩

theorem Evolves.finishes (h : x.Evolves Stop.inTime r Q) : x.Finishes r :=
  Ensures.mono h (fun _ _ _ => trivial) fun _ _ h => h.2

theorem evolves_solving {x : Solve α} (h : x.Evolves Stop.inTime r Q) (e : Expr) :
    (solving e x).Evolves Stop.inTime r Q := by
  apply ensures_solving.2
  apply Ensures.mono h
  · exact fun _ _ h => h
  · intro stop r' hstop
    refine ⟨hstop.1, ?_⟩
    cases stop with
    | error why => simp [Stop.atExpr]
    | fault f => simpa [Stop.atExpr] using hstop.2

end Action

/-! ## What solving does to the depth -/

namespace Table

variable {tb tb' tb'' : Table} {H k : Nat}

/-- Solutions are at most `H` deep, and at most `k` metavariables are unsolved. -/
structure Bounded (tb : Table) (H k : Nat) : Prop where
  acyclic : tb.Acyclic
  solutions : ∀ m t, tb.solution? m = some t → tb.DepthLe H t
  unsolved : tb.unsolved ≤ k

/-- From `tb` to `tb'`, types became deeper, but not by more than the solved metavariables allow. -/
def Grown (H k : Nat) (tb tb' : Table) : Prop :=
  ∃ G k', tb'.Bounded (H + G) k' ∧ (∀ n t, tb.DepthLe n t → tb'.DepthLe (n + G) t) ∧
    (H + G) * 2 ^ k' ≤ H * 2 ^ k

theorem Bounded.grown (h : tb.Bounded H k) : Grown H k tb tb :=
  ⟨0, k, h, fun _ _ ht => ht, le_rfl⟩

/-- **Solving a metavariable.** -/
theorem Bounded.write (h : tb.Bounded H k) {m : MVar} {t : Ty} (ho : tb.owns m)
    (hm : tb.solution? m = none) (ht : tb.DepthLe H t) (hocc : m ∉ (tb.expand t).mvars) :
    Grown H k tb (tb.write m t) := by
  have hr : ¬ tb.Reaches t m := fun hr => hocc (h.acyclic.mem_mvars_expand.2 ⟨hr, hm⟩)
  have hcount := unsolved_write ho hm t
  obtain ⟨k, rfl⟩ : ∃ j, k = j + 1 := ⟨k - 1, by have := h.unsolved; omega⟩
  refine ⟨H, k, ⟨h.acyclic.write ho hr, fun j u hu => ?_, by have := h.unsolved; omega⟩,
    fun n u hu => hu.write ho ht hr, ?_⟩
  · by_cases hj : j = m
    · subst hj
      rw [solution?_write_self ho] at hu
      cases hu
      exact (ht.write_of_not_reaches hr).mono (Nat.le_add_right H H)
    · rw [solution?_write_of_ne tb hj] at hu
      exact (h.solutions j u hu).write ho ht hr
  · rw [Nat.pow_succ, Nat.add_mul, ← Nat.mul_assoc]
    omega

end Table

/-! ## Unification -/

section

variable {r : Run} {H k : Nat}

/-- Opening a quantifier at a leaf leaves the table alone and makes nothing deeper. -/
theorem ensures_openAll {ε α : Type} {x : String} {t new : Ty} {i : Nat} {f : Ty → Action ε α}
    {Q : α → Run → Prop} {E : Stop ε → Run → Prop} (hnew : ∀ i, r.table.DepthLe (i + 1) new)
    (ht : r.table.DepthLe i t)
    (h : ∀ t' r', r.Restamped r' → r.stamps ≤ r'.stamps → r'.table.DepthLe i t' →
      (f t').Ensures r' Q E) :
    (liftM (openAll x t new) >>= f).Ensures r Q E := by
  simp only [ensures_bind, ensures_lift]
  have hr : r.Restamped (openAll x t new r).2 := subst_restamped x new t r
  refine h _ _ hr (stamps_le_subst x new t r) ?_
  rw [hr.table]
  exact depthLe_subst hnew ht

theorem mismatch_finishes {α : Type} (a b : Ty) (Q : α → Run → Prop) :
    (mismatch a b : Solve α).Ensures r Q fun stop _ => stop.inTime := by
  unfold mismatch
  simp only [ensures_bind, ensures_lift]
  intro h
  cases h

theorem assign_finishes (m : MVar) (t : Ty) : (assign m t).Finishes r := by
  unfold Finishes Ensures assign
  split_ifs <;> simp

/-- The action does not stop for lack of steps, and what it solves makes types no deeper than the
metavariables allow that are left. -/
def FinishesGrown (H k : Nat) (x : Solve Unit) (r : Run) : Prop :=
  x.Ensures r (fun _ r' => Table.Grown H k r.table r'.table) fun stop _ => stop.inTime

theorem settle_finishes {m : MVar} {t : Ty} (hb : r.table.Bounded H k)
    (hm : r.table.solution? m = none) (ht : r.table.DepthLe H t) :
    FinishesGrown H k (settle m t) r := by
  refine ensures_settle (fun why _ h => by cases h) fun hfree => ?_
  have hocc := ((obstacle?_eq_none hb.acyclic hm).1 hfree).1
  refine ensures_assign_of_unsolved hm (fun why h => by cases h) fun ho => ?_
  exact hb.write ho hm ht hocc

/-- Recording a step takes none. -/
theorem FinishesGrown.log {e : Event} {x : Solve Unit}
    (h : FinishesGrown H k x (Run.log e r).2) :
    FinishesGrown H k (do Run.log e; x) r := by
  rw [FinishesGrown, ensures_bind, ensures_lift, ← r.table_log e]
  exact h

/-- With `n` steps to go, types that are `i` and `j` deep can be unified. -/
def UnifyFinishes (U : Ty → Ty → Solve Unit) (n : Nat) : Prop :=
  ∀ (a b : Ty) (r : Run) (H k i j : Nat), r.table.Bounded H k → r.table.DepthLe i a →
    r.table.DepthLe j b → i ≤ H → j ≤ H → 2 * (i + j) + 1 + 4 * (H * 2 ^ k) ≤ n + 4 * H →
    FinishesGrown H k (U a b) r

/-- With `n` steps to go, a metavariable that is `i` deep can be solved by a type that is `j` deep. -/
def SolveFinishes (S : MVar → Ty → Solve Unit) (n : Nat) : Prop :=
  ∀ (m : MVar) (t : Ty) (r : Run) (H k i j : Nat), r.table.Bounded H k →
    r.table.DepthLe i (.mvar m) → r.table.DepthLe j t → i ≤ H → j ≤ H →
    2 * (i + j) + 4 * (H * 2 ^ k) ≤ n + 4 * H → FinishesGrown H k (S m t) r

variable {U : Ty → Ty → Solve Unit} {S : MVar → Ty → Solve Unit} {n : Nat}

/-- There is nothing to be done in no steps. -/
theorem finishes_zero (U : Ty → Ty → Solve Unit) (S : MVar → Ty → Solve Unit) :
    UnifyFinishes U 0 ∧ SolveFinishes S 0 := by
  have hpow : ∀ H k : Nat, H ≤ H * 2 ^ k := fun H k => Nat.le_mul_of_pos_right H (Nat.two_pow_pos k)
  refine ⟨fun a b r H k i j _ _ _ _ _ hn => ?_, fun m t r H k i j _ hi _ _ _ hn => ?_⟩
  · have := hpow H k
    omega
  · have := hpow H k
    have := hi.pos
    omega

/-- Unifying the first two parts may make the other two deeper, but leaves the steps for them. -/
theorem UnifyFinishes.both (ih : UnifyFinishes U n) {p p' q q' : Ty} {i j : Nat}
    (hb : r.table.Bounded H k) (hp : r.table.DepthLe i p) (hp' : r.table.DepthLe j p')
    (hq : r.table.DepthLe i q) (hq' : r.table.DepthLe j q') (hi : i ≤ H) (hj : j ≤ H)
    (hn : 2 * (i + j) + 4 + 4 * (H * 2 ^ k) ≤ n + 4 * H) :
    FinishesGrown H k (do U p p'; U q q' : Solve Unit) r := by
  refine ensures_bind.2 ?_
  refine (ih p p' r H k i j hb hp hp' hi hj (by omega)).mono (fun _ r₁ h₁ => ?_) fun _ _ h => h
  obtain ⟨G, k₁, hb₁, hgrow₁, hle₁⟩ := h₁
  refine (ih q q' r₁ (H + G) k₁ (i + G) (j + G) hb₁ (hgrow₁ i q hq) (hgrow₁ j q' hq')
    (by omega) (by omega) (by omega)).mono (fun _ r₂ h₂ => ?_) fun _ _ h => h
  obtain ⟨G', k₂, hb₂, hgrow₂, hle₂⟩ := h₂
  rw [Nat.add_assoc] at hb₂ hle₂
  refine ⟨G + G', k₂, hb₂, fun i t ht => ?_, hle₂.trans hle₁⟩
  rw [← Nat.add_assoc]
  exact hgrow₂ _ t (hgrow₁ i t ht)

theorem descend_finishes (hunify : UnifyFinishes U n) (hsolve : SolveFinishes S n) :
    UnifyFinishes (descend U S) (n + 1) := by
  intro a b r H k i j hb ha hb' hi hj hn
  obtain ⟨i, rfl⟩ := Nat.exists_eq_add_one.2 ha.pos
  obtain ⟨j, rfl⟩ := Nat.exists_eq_add_one.2 hb'.pos
  refine ensures_descend ?_ ?_ ?_ ?_ ?_ fun _ => mismatch_finishes a b _
  · rintro k' p q k'' p' q' rfl rfl
    exact hunify.both hb ha.1 hb'.1 ha.2 hb'.2 (by omega) (by omega) (by omega)
  · rintro k' f x k'' f' x' rfl rfl
    exact hunify.both hb ha.1 hb'.1 ha.2 hb'.2 (by omega) (by omega) (by omega)
  · rintro k' x t k'' y u rfl rfl
    refine ensures_bind.2 (ensures_lift.2 ?_)
    refine ensures_openAll (fun _ => trivial) (i := i) ha fun t' r₁ h₁ _ ht' => ?_
    have htable₁ : r₁.table = r.table := h₁.table
    rw [← htable₁] at hb hb' ⊢
    refine ensures_openAll (fun _ => trivial) (i := j) hb' fun u' r₂ h₂ _ hu' => ?_
    rw [← h₂.table] at hb ht' ⊢
    exact hunify t' u' r₂ H k i j hb ht' hu' (by omega) (by omega) (by omega)
  · rintro m rfl
    exact hsolve m b _ H k (i + 1) (j + 1) hb ha hb' hi hj (by omega)
  · rintro m rfl
    exact hsolve m a _ H k (j + 1) (i + 1) hb hb' ha hj hi (by omega)

theorem pursue_finishes (hunify : UnifyFinishes U n) (hsolve : SolveFinishes S n) :
    SolveFinishes (pursue U S) (n + 1) := by
  intro m t r H k i j hb hm ht hi hj hn
  obtain ⟨i, rfl⟩ := Nat.exists_eq_add_one.2 hm.pos
  refine ensures_pursue (fun _ => hb.grown) ?_ ?_ fun hu _ _ => settle_finishes hb hu (ht.mono hj)
  · intro u hu
    exact hunify u t _ H k i j hb (hm u hu) ht (by omega) hj (by omega)
  · rintro m' u - rfl hu
    obtain ⟨j, rfl⟩ := Nat.exists_eq_add_one.2 ht.pos
    exact hsolve m u _ H k (i + 1) j hb hm (ht u hu) hi (by omega) (by omega)

/-- **Unification has enough steps.** -/
theorem unifyWithin_finishes (n : Nat) :
    UnifyFinishes (unifyWithin n) n ∧ SolveFinishes (solveWithin n) n := by
  induction n with
  | zero => exact finishes_zero _ _
  | succ n ih =>
    refine ⟨fun a b r H k i j hb ha hb' hi hj hn => ?_, fun m t r H k i j hb hm ht hi hj hn => ?_⟩
    · rw [unifyWithin_succ]
      refine FinishesGrown.log ?_
      rw [← r.table_log (.unify a b)] at hb ha hb'
      by_cases hab : a = b
      · rw [if_pos hab]
        exact hb.grown
      · rw [if_neg hab]
        exact descend_finishes ih.1 ih.2 a b _ H k i j hb ha hb' hi hj hn
    · rw [solveWithin_succ]
      refine FinishesGrown.log ?_
      rw [← r.table_log (.solve m t)] at hb hm ht
      exact pursue_finishes ih.1 ih.2 m t _ H k i j hb hm ht hi hj hn

/-- What is in an acyclic table is no deeper than `Run.depth` allows. -/
theorem Table.Acyclic.bounded (ha : r.table.Acyclic) (ts : List Ty) (hts : 2 ≤ ts.length) :
    r.table.Bounded (r.depth ts) r.table.unsolved := by
  refine ⟨ha, fun m t hm => (ha.depthLe_size t).mono ?_, le_rfl⟩
  have hsize := Table.size_le_weight hm
  match ts, hts with
  | a :: b :: ts, _ =>
    simp only [Run.depth, List.foldr_cons]
    omega

theorem steps_suffice (r : Run) (a b : Ty) :
    2 * (a.size + r.table.weight + (b.size + r.table.weight)) + 1 +
      4 * (r.depth [a, b] * 2 ^ r.table.unsolved) ≤ r.steps [a, b] + 4 * r.depth [a, b] := by
  have hsq : r.depth [a, b] * 2 ^ r.table.unsolved ≤
      r.depth [a, b] * r.depth [a, b] * 2 ^ r.table.unsolved :=
    Nat.mul_le_mul_right _ (Nat.le_mul_self _)
  have hsteps : r.steps [a, b] = 8 * (r.depth [a, b] * r.depth [a, b] * 2 ^ r.table.unsolved) := by
    rw [Run.steps, Nat.shiftLeft_eq, Nat.pow_add]
    ring
  have hdepth : r.depth [a, b] = a.size + r.table.weight + (b.size + r.table.weight + 1) := rfl
  omega

theorem UnifyFinishes.finishes {a b : Ty} (h : UnifyFinishes U (r.steps [a, b]))
    (ha : r.table.Acyclic) : (U a b).Finishes r := by
  refine (h a b r _ _ _ _ (ha.bounded [a, b] le_rfl) (ha.depthLe_size a) (ha.depthLe_size b) ?_ ?_
    (steps_suffice r a b)).mono (fun _ _ _ => trivial) fun _ _ h => h
  · simp only [Run.depth, List.foldr_cons]
    omega
  · simp only [Run.depth, List.foldr_cons]
    omega

/-- **Unification comes to an end** in an acyclic table, whatever the types. -/
theorem unify_finishes (ha : r.table.Acyclic) (a b : Ty) : (unify a b).Finishes r :=
  ensures_bind.2 (ensures_get.2 ((unifyWithin_finishes _).1.finishes ha))

/-- Solving comes to an end as well. -/
theorem solve_finishes (ha : r.table.Acyclic) (m : MVar) (t : Ty) : (solve m t).Finishes r := by
  refine ensures_bind.2 (ensures_get.2 ?_)
  refine ((unifyWithin_finishes _).2 m t r _ _ _ _ (ha.bounded [.mvar m, t] le_rfl)
    (ha.depthLe_size (.mvar m)) (ha.depthLe_size t) ?_ ?_
    ((Nat.le_succ _).trans ?_)).mono (fun _ _ _ => trivial) fun _ _ h => h
  · simp only [Run.depth, List.foldr_cons]
    omega
  · simp only [Run.depth, List.foldr_cons]
    omega
  · rw [Nat.succ_eq_add_one, Nat.add_right_comm]
    exact steps_suffice r (.mvar m) t

end

/-! ## Quantifiers and parameters

These calls descend into a type, and a step on the way makes nothing deeper. -/

section

variable {r : Run} {scope : Scope}

/-- Opening a quantifier at a new metavariable makes nothing deeper. -/
theorem ensures_openAll_newMVar {ε α : Type} {x : String} {t : Ty} {i : Nat}
    {f : Ty → Action ε α} {Q : α → Run → Prop} {E : Stop ε → Run → Prop}
    (hr : r.InOrder) (ht : r.table.DepthLe i t)
    (h : ∀ t' r', r'.InOrder → (∀ m, r'.table.solution? m = r.table.solution? m) →
      r'.table.DepthLe i t' → (f t').Ensures r' Q E) :
    (do
      let m ← Run.newMVar scope
      let t ← openAll x t (.mvar m)
      f t : Action ε α).Ensures r Q E := by
  have h₁ := hr.newMVar scope
  refine ensures_bind.2 (ensures_lift.2 ?_)
  refine ensures_openAll (fun i u hu => ?_) (ht.congr (r.solution?_newMVar scope))
    fun t' r' hr' hs' ht' => h t' r' (h₁.inOrder.agrees hr'.agrees hs').inOrder (fun m => ?_) ht'
  · rw [hr.unsolved_newMVar] at hu
    cases hu
  · rw [hr'.table, r.solution?_newMVar]

/-- **Subsumption comes to an end.** -/
theorem subsumeWithin_finishes (n : Nat) (a b : Ty) (scope : Scope) (r : Run) (i j : Nat)
    (hr : r.InOrder) (hi : r.table.DepthLe i a) (hj : r.table.DepthLe j b) (hn : i + j ≤ n) :
    (subsumeWithin n scope a b).Finishes r := by
  induction n generalizing a b scope r i j with
  | zero =>
    have := hi.pos
    omega
  | succ n ih =>
    have hr₁ := (hr.log (.subsume a b)).inOrder
    rw [← r.table_log (.subsume a b)] at hi hj
    apply ensures_subsumeWithin
    · rintro k x t rfl
      obtain ⟨j, rfl⟩ := Nat.exists_eq_add_one.2 hj.pos
      refine ensures_bind.2 (ensures_lift.2 ?_)
      refine ensures_openAll (fun _ => trivial) (i := j) hj fun t' r₂ h₂ hs₂ ht' => ?_
      have hr₂ := hr₁.newSkolem.inOrder.agrees h₂.agrees hs₂
      refine ih a t' _ r₂ i j hr₂.inOrder ?_ ht' (by omega)
      rw [show r₂.table = _ from h₂.table]
      exact hi
    · rintro k x t rfl
      obtain ⟨i, rfl⟩ := Nat.exists_eq_add_one.2 hi.pos
      refine ensures_openAll_newMVar hr₁ (i := i) hi fun t' r₂ hr₂ hs₂ ht' => ?_
      exact ih t' b _ r₂ i j hr₂ ht' (hj.congr hs₂) (by omega)
    · exact fun _ _ => unify_finishes hr₁.acyclic a b

theorem subsume_finishes (hr : r.InOrder) (a b : Ty) : (subsume scope a b).Finishes r := by
  have ha := hr.acyclic
  refine ensures_bind.2 (ensures_get.2 ?_)
  refine subsumeWithin_finishes _ a b scope r _ _ hr (ha.depthLe_size a) (ha.depthLe_size b) ?_
  simp only [Run.depth, List.foldr_cons, List.foldr_nil]
  omega

/-- **Exposing a function type comes to an end.** -/
theorem exposeWithin_finishes (args : List Expr) (n : Nat) (t : Ty) (r : Run) (i : Nat)
    (hr : r.InOrder) (hi : r.table.DepthLe i t) (hn : i ≤ n) :
    (exposeWithin scope args n t).Finishes r := by
  induction n generalizing t r i with
  | zero =>
    have := hi.pos
    omega
  | succ n ih =>
    obtain ⟨i, rfl⟩ := Nat.exists_eq_add_one.2 hi.pos
    refine ensures_exposeWithin ?_ (fun _ _ _ _ => trivial) ?_ ?_ fun _ _ _ h => by cases h
    · rintro k x body rfl
      refine ensures_openAll_newMVar hr (i := i) hi fun t' r₁ hr₁ _ ht' => ?_
      exact ih t' r₁ i hr₁ ht' (by omega)
    · rintro m u rfl hu
      exact ih u r i hr (hi u hu) (by omega)
    · rintro m - -
      refine ensures_bind.2 (ensures_lift.2 (ensures_bind.2 (ensures_lift.2 ?_)))
      refine ensures_bind.2 (ensures_lift.2 (ensures_bind.2 ?_))
      exact (assign_finishes m _).mono (fun _ _ _ => trivial) fun _ _ h => h

theorem expose_finishes (hr : r.InOrder) (args : List Expr) (t : Ty) :
    (expose scope args t).Finishes r := by
  refine ensures_bind.2 (ensures_get.2 ?_)
  refine exposeWithin_finishes args _ t r _ hr (hr.acyclic.depthLe_size t) ?_
  simp [Run.depth]

/-- **Expecting a type comes to an end.** -/
theorem skolemizeWithin_finishes (e : Expr) (n : Nat) (t : Ty) (scope : Scope) (r : Run) (i : Nat)
    (hi : r.table.DepthLe i t) (hn : i ≤ n) :
    (skolemizeWithin e n scope t).Finishes r := by
  induction n generalizing t scope r i with
  | zero =>
    have := hi.pos
    omega
  | succ n ih =>
    obtain ⟨i, rfl⟩ := Nat.exists_eq_add_one.2 hi.pos
    rw [← r.table_log (.check e t)] at hi
    refine ensures_skolemizeWithin ?_ ?_ fun _ _ => trivial
    · rintro m u rfl hu
      rw [← r.table_log (.check e (.mvar m))] at hu
      exact ih u scope _ i (hi u hu) (by omega)
    · rintro k x body rfl
      refine ensures_bind.2 (ensures_lift.2 ?_)
      refine ensures_openAll (fun _ => trivial) (i := i) hi fun t' r₁ _ _ ht' => ?_
      exact ih t' _ r₁ i ht' (by omega)

theorem skolemize_finishes (ha : r.table.Acyclic) (e : Expr) (t : Ty) :
    (skolemize e scope t).Finishes r := by
  refine ensures_bind.2 (ensures_get.2 ?_)
  refine skolemizeWithin_finishes e _ t scope r _ (ha.depthLe_size t) ?_
  simp [Run.depth]

end

/-! ## Inference

In a run in order, every call of the solver that inference makes comes to an end and leaves a run in
order, and expressions get smaller from call to call. -/

section

variable {r : Run} {names : Names} {scope : Scope}

theorem takeAll_evolves (args : List Expr) {t : Ty} (hr : r.InOrder) (ht : t.Passed r) :
    (Parameters.takeAll scope t args).Evolves Stop.inTime r fun ps r' =>
      (∀ p ∈ ps.1, p.Passed r') ∧ ps.2.Passed r' := by
  induction args generalizing t r with
  | nil =>
    rw [Parameters.takeAll_nil]
    exact evolves_pure hr ⟨by simp, ht⟩
  | cons arg args ih =>
    rw [Parameters.takeAll_cons]
    refine ((expose_finishes hr (arg :: args) t).evolves
      (expose_evolves (arg :: args) hr ht)).bind fun ex r₁ he₁ hex => ?_
    refine (ih he₁.inOrder hex.2).bind fun ps r₂ he₂ hps => ?_
    exact evolves_pure he₂.inOrder ⟨List.forall_mem_cons.2 ⟨he₂.passed hex.1, hps.1⟩, hps.2⟩

/-- Checking an expression comes to an end. -/
def CheckEvolves (e : Expr) : Prop :=
  ∀ (names : Names) (scope : Scope) (t : Ty) (r : Run), r.InOrder → names.Every (·.Passed r) →
    e.Every (·.Passed r) → t.Passed r →
    (check names scope e t).Evolves Stop.inTime r fun _ _ => True

/-- Synthesizing a type comes to an end. -/
def SynthEvolves (e : Expr) : Prop :=
  ∀ (names : Names) (scope : Scope) (r : Run), r.InOrder → names.Every (·.Passed r) →
    e.Every (·.Passed r) → (synth names scope e).Evolves Stop.inTime r fun t r' => t.Passed r'

theorem checkArgs_evolves {args : List Expr} {params : List Ty}
    (hargs : ∀ a ∈ args, CheckEvolves a) (hr : r.InOrder) (hnames : names.Every (·.Passed r))
    (hexprs : ∀ a ∈ args, a.Every (·.Passed r)) (hparams : ∀ p ∈ params, p.Passed r) :
    (checkArgs names scope args params).Evolves Stop.inTime r fun _ _ => True := by
  induction args generalizing params r with
  | nil => exact evolves_pure hr trivial
  | cons a args ih =>
    cases params with
    | nil => exact evolves_pure hr trivial
    | cons p params =>
      rw [checkArgs_cons]
      simp only [List.forall_mem_cons] at hargs hexprs hparams
      refine (hargs.1 names scope p r hr hnames hexprs.1 hparams.1).bind fun _ r₁ he₁ _ => ?_
      apply ih hargs.2 he₁.inOrder
      · exact hnames.mono fun _ ht => he₁.passed ht
      · exact fun b hb => (hexprs.2 b hb).mono fun _ ht => he₁.passed ht
      · exact fun q hq => he₁.passed (hparams.2 q hq)

theorem Names.find?_ne_cyclic (x : String) : names.find? x ≠ .error .cyclic := by
  unfold Names.find? Locals.find?
  cases Layer.find? names.locals x with
  | none => simp [bind, Except.bind, pure, Except.pure]
  | some t => cases t <;> simp [bind, Except.bind, pure, Except.pure]

/-- The head of an application is synthesized and its parameters are taken. -/
theorem head_evolves {α : Type} {e : Expr} {k : List Ty × Ty → Infer α} {Q : α → Run → Prop}
    (hsynth : SynthEvolves e.head) (hr : r.InOrder) (hnames : names.Every (·.Passed r))
    (hexpr : e.Every (·.Passed r))
    (h : ∀ ps r', r.Evolves r' → (∀ p ∈ ps.1, p.Passed r') → ps.2.Passed r' →
      (k ps).Evolves Stop.inTime r' Q) :
    (do
      let ft ← synth names scope e.head
      let ps ← solving e (Parameters.takeAll scope ft e.args)
      k ps : Infer α).Evolves Stop.inTime r Q := by
  refine (hsynth names scope r hr hnames hexpr.head).bind fun ft r₁ he₁ hft => ?_
  refine (evolves_solving (takeAll_evolves e.args he₁.inOrder hft) e).bind fun ps r₂ he₂ hps => ?_
  exact h ps r₂ (he₁.trans he₂) hps.1 hps.2

theorem synth_evolves_step (e : Expr)
    (ih : ∀ e', e'.size < e.size → CheckEvolves e' ∧ SynthEvolves e') : SynthEvolves e := by
  intro names scope r hr hnames hexpr
  have hlog := hr.log (.synth e)
  have hr₁ := hlog.inOrder
  have hnames₁ : names.Every (·.Passed (Run.log (.synth e) r).2) :=
    hnames.mono fun _ ht => hlog.passed ht
  have hexpr₁ : e.Every (·.Passed (Run.log (.synth e) r).2) :=
    hexpr.mono fun _ ht => hlog.passed ht
  have hother : (e = .absent ∨ (∃ k, e = .unknown k) ∨ ∃ e', e = .ann e' .absent) →
      (synth names scope e).Evolves Stop.inTime r fun t r' => t.Passed r' := by
    intro h
    rw [synth_other names scope h]
    exact evolves_lift_bind hlog (evolves_throw hr₁ fun h => by cases h)
  cases e with
  | var x =>
    rw [synth_var]
    refine evolves_lift_bind hlog ?_
    split
    · exact evolves_pure hr₁ (hnames₁.find ‹_›)
    · exact evolves_throw hr₁ fun h => by cases h
    · rename_i f hf
      exact evolves_throw hr₁ fun h => Names.find?_ne_cyclic x (hf.trans (by cases h; rfl))
  | fn x body =>
    rw [synth_fn]
    refine evolves_lift_bind hlog ?_
    have h₂ := hr₁.newMVar scope
    have h₃ := h₂.inOrder.newMVar scope
    have hp := h₃.passed (Ty.passed_newMVar _ scope)
    have hq := Ty.passed_newMVar (Run.newMVar scope (Run.log (.synth (.fn x body)) r).2).2 scope
    refine evolves_lift_bind h₂ (evolves_lift_bind h₃ ?_)
    have hcheck := (ih body (by simp only [Expr.size]; omega)).1 (names.insert x (.mvar _)) scope
      (.mvar _) _ h₃.inOrder ((hnames₁.mono fun _ ht => h₃.passed (h₂.passed ht)).insert x hp)
      (hexpr₁.mono fun _ ht => h₃.passed (h₂.passed ht)) hq
    refine hcheck.bind fun _ r₄ h₄ _ => ?_
    exact evolves_newArrow h₄.inOrder (h₄.passed hp) (h₄.passed hq)
  | app f a =>
    rw [synth_app]
    refine evolves_lift_bind hlog ?_
    refine head_evolves (ih _ (Expr.size_head_lt f a)).2 hr₁ hnames₁ hexpr₁ ?_
    intro ps r₂ he₂ hps hrest
    refine (checkArgs_evolves (fun b hb => (ih b (Expr.size_lt_of_mem_args hb)).1) he₂.inOrder
      (hnames₁.mono fun _ ht => he₂.passed ht)
      (fun b hb => (hexpr₁.arg hb).mono fun _ ht => he₂.passed ht) hps).bind fun _ r₃ he₃ _ => ?_
    exact evolves_pure he₃.inOrder (he₃.passed hrest)
  | ann e' t =>
    by_cases ht : t = .absent
    · subst ht
      exact hother (.inr (.inr ⟨e', rfl⟩))
    · rw [synth_ann names scope e' ht]
      refine evolves_lift_bind hlog ?_
      have ht₁ := hexpr₁ t List.mem_cons_self
      have hcheck := (ih e' (by simp only [Expr.size]; omega)).1 names scope t _ hr₁ hnames₁
        (fun u hu => hexpr₁ u (List.mem_cons_of_mem _ hu)) ht₁
      exact hcheck.bind fun _ r₂ he₂ _ => evolves_pure he₂.inOrder (he₂.passed ht₁)
  | unknown k => exact hother (.inr (.inl ⟨k, rfl⟩))
  | absent => exact hother (.inl rfl)

theorem check_evolves_step (e : Expr) (hs : SynthEvolves e)
    (ih : ∀ e', e'.size < e.size → CheckEvolves e' ∧ SynthEvolves e') : CheckEvolves e := by
  intro names scope t r hr hnames hexpr ht
  rw [check_eq]
  refine ((skolemize_finishes hr.acyclic e t).evolves (skolemize_evolves e hr ht)).bind
    fun ⟨scope, t⟩ r₁ he₁ ht₁ => ?_
  have hr₁ := he₁.inOrder
  have hnames₁ : names.Every (·.Passed r₁) := hnames.mono fun _ ht => he₁.passed ht
  have hexpr₁ : e.Every (·.Passed r₁) := hexpr.mono fun _ ht => he₁.passed ht
  -- What is found is compared with what is expected.
  have hsub : ∀ {found t : Ty} {r : Run}, r.InOrder → found.Passed r → t.Passed r →
      (solving e (subsume scope found t)).Evolves Stop.inTime r fun _ _ => True := by
    intro found t r hr hfound ht
    exact evolves_solving ((subsume_finishes hr found t).evolves (subsume_evolves hr hfound ht)) e
  have hsynth : (do
      let found ← synth names scope e
      solving e (subsume scope found t) : Infer Unit).Evolves Stop.inTime r₁ fun _ _ => True := by
    refine (hs names scope r₁ hr₁ hnames₁ hexpr₁).bind fun found r₂ he₂ hfound => ?_
    exact hsub he₂.inOrder hfound (he₂.passed ht₁)
  cases e with
  | fn x body =>
    cases t with
    | arrow k p q =>
      obtain ⟨hp, hq⟩ := Ty.leaves_arrow.1 ht₁
      exact (ih body (by simp only [Expr.size]; omega)).1 _ _ _ r₁ hr₁ (hnames₁.insert x hp) hexpr₁ hq
    | _ => exact hsynth
  | app f a =>
    refine head_evolves (ih _ (Expr.size_head_lt f a)).2 hr₁ hnames₁ hexpr₁ ?_
    intro ps r₂ he₂ hps hrest
    refine (hsub he₂.inOrder hrest (he₂.passed ht₁)).bind fun _ r₃ he₃ _ => ?_
    have he₁₃ := he₂.trans he₃
    exact checkArgs_evolves (fun b hb => (ih b (Expr.size_lt_of_mem_args hb)).1) he₃.inOrder
      (hnames₁.mono fun _ ht => he₁₃.passed ht)
      (fun b hb => (hexpr₁.arg hb).mono fun _ ht => he₁₃.passed ht)
      fun p hp => he₃.passed (hps p hp)
  | _ => exact hsynth

/-- **Inference comes to an end** in every run in order, and leaves a run in order. -/
theorem infer_evolves (e : Expr) : CheckEvolves e ∧ SynthEvolves e :=
  infer_induction synth_evolves_step check_evolves_step e

end

end RankN
