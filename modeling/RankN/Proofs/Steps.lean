import RankN.Proofs.Outcome
import RankN.Proofs.Rejections

/-!
# One rule for each function of inference

For each function of the solver and of inference there is one rule that says what a call of it does
next: to know how the call ends, it is enough to know how each of its branches ends. Everything that
is proved about all runs of inference is proved from these rules, by induction on the steps left or
on the size of the expression.
-/

namespace RankN

open RankN.Action

/-! ## Unification -/

/-- Two types that are never equal, whatever their metavariables stand for, unless they are the same
leaf: neither is a metavariable, and they are not of the same compound form. -/
def Ty.Clashes : Ty → Ty → Prop
  | .mvar _, _ | _, .mvar _ => False
  | .arrow .., .arrow .. | .app .., .app .. | .all .., .all .. => False
  | _, _ => True

/-- The ways in which two types meet in unification. -/
inductive Ty.Meeting : Ty → Ty → Prop
  | arrow (k : Nat) (p q : Ty) (k' : Nat) (p' q' : Ty) : Meeting (.arrow k p q) (.arrow k' p' q')
  | app (k : Nat) (f a : Ty) (k' : Nat) (f' a' : Ty) : Meeting (.app k f a) (.app k' f' a')
  | all (k : Nat) (x : String) (t : Ty) (k' : Nat) (y : String) (u : Ty) :
    Meeting (.all k x t) (.all k' y u)
  | left (m : MVar) (b : Ty) : Meeting (.mvar m) b
  | right (a : Ty) (m : MVar) : (∀ k, a ≠ .mvar k) → Meeting a (.mvar m)
  | clash (a b : Ty) : a.Clashes b → Meeting a b

theorem Ty.meeting (a b : Ty) : a.Meeting b := by
  cases a with
  | mvar m => exact .left m b
  | arrow k p q =>
    cases b with
    | arrow k' p' q' => exact .arrow ..
    | mvar m => exact .right _ m (by simp)
    | _ => exact .clash _ _ trivial
  | app k f x =>
    cases b with
    | app k' f' x' => exact .app ..
    | mvar m => exact .right _ m (by simp)
    | _ => exact .clash _ _ trivial
  | all k x t =>
    cases b with
    | all k' y u => exact .all ..
    | mvar m => exact .right _ m (by simp)
    | _ => exact .clash _ _ trivial
  | _ =>
    cases b with
    | mvar m => exact .right _ m (by simp)
    | _ => exact .clash _ _ trivial

/-- What unification does with two types that are not the same node, when it goes on with `U` for
two types and with `S` for a metavariable and a type. -/
def descend (U : Ty → Ty → Solve Unit) (S : MVar → Ty → Solve Unit) : Ty → Ty → Solve Unit
  | .arrow _ p q, .arrow _ p' q' => do
    U p p'
    U q q'
  | .app _ f x, .app _ f' x' => do
    U f f'
    U x x'
  | .all _ x t, .all _ y u => do
    let c ← Run.newSkolem
    let t ← openAll x t (.skolem c)
    let u ← openAll y u (.skolem c)
    U t u
  | .mvar m, t => S m t
  | t, .mvar m => S m t
  | t, u => mismatch t u

/-- What is done to make a metavariable equal to a type, when it goes on with `U` for two types and
with `S` for a metavariable and a type. -/
def pursue (U : Ty → Ty → Solve Unit) (S : MVar → Ty → Solve Unit) (m : MVar) (t : Ty) :
    Solve Unit := do
  if t = .mvar m then return ()
  else
    let tb := (← get).table
    match tb.solution? m, t with
    | some u, t => U u t
    | none, .mvar m' =>
      match tb.solution? m' with
      | some u => S m u
      | none => settle m (.mvar m')
    | none, t => settle m t

theorem unifyWithin_succ (n : Nat) (a b : Ty) :
    unifyWithin (n + 1) a b = (do
      Run.log (.unify a b)
      if a = b then return () else descend (unifyWithin n) (solveWithin n) a b) := by
  unfold unifyWithin descend
  rfl

theorem solveWithin_succ (n : Nat) (m : MVar) (t : Ty) :
    solveWithin (n + 1) m t = (do
      Run.log (.solve m t)
      pursue (unifyWithin n) (solveWithin n) m t) := by
  unfold solveWithin pursue
  rfl

section

variable {U : Ty → Ty → Solve Unit} {S : MVar → Ty → Solve Unit} {a b t u : Ty} {m k : MVar}
  {r : Run} {Q : Unit → Run → Prop} {E : Stop TypeError → Run → Prop}

theorem descend_left (m : MVar) (b : Ty) : descend U S (.mvar m) b = S m b := by
  cases b <;> rfl

theorem descend_right (m : MVar) (ha : ∀ k, a ≠ .mvar k) : descend U S a (.mvar m) = S m a := by
  cases a with
  | mvar k => exact absurd rfl (ha k)
  | _ => rfl

theorem descend_clash (h : a.Clashes b) : descend U S a b = mismatch a b := by
  -- The pairs that are left after the first step are those without a rule.
  cases a <;> cases b <;> simp only [Ty.Clashes] at h <;> rfl

theorem pursue_self (m : MVar) : pursue U S m (.mvar m) = pure () := if_pos rfl

theorem pursue_of_ne (ht : t ≠ .mvar m) (r : Run) :
    pursue U S m t r = (match r.table.solution? m, t with
      | some u, t => U u t
      | none, .mvar m' =>
        match r.table.solution? m' with
        | some u => S m u
        | none => settle m (.mvar m')
      | none, t => settle m t) r := by
  rw [pursue, if_neg ht]
  rfl

theorem pursue_solved (ht : t ≠ .mvar m) (hm : r.table.solution? m = some u) :
    pursue U S m t r = U u t r := by
  rw [pursue_of_ne ht, hm]

theorem pursue_follow (hk : Ty.mvar k ≠ .mvar m) (hm : r.table.solution? m = none)
    (hu : r.table.solution? k = some u) : pursue U S m (.mvar k) r = S m u r := by
  rw [pursue_of_ne hk, hm]
  simp only [hu]

theorem pursue_settle (ht : t ≠ .mvar m) (hm : r.table.solution? m = none)
    (hk : ∀ k, t = .mvar k → r.table.solution? k = none) : pursue U S m t r = settle m t r := by
  rw [pursue_of_ne ht, hm]
  cases t with
  | mvar k => simp only [hk k rfl]
  | _ => rfl

/-- Types of the same form are taken apart, a metavariable is solved, or there is an error. -/
theorem ensures_descend
    (arrow : ∀ k p q k' p' q', a = .arrow k p q → b = .arrow k' p' q' →
      (do U p p'; U q q' : Solve Unit).Ensures r Q E)
    (app : ∀ k f x k' f' x', a = .app k f x → b = .app k' f' x' →
      (do U f f'; U x x' : Solve Unit).Ensures r Q E)
    (all : ∀ k x t k' y u, a = .all k x t → b = .all k' y u →
      (do
        let c ← Run.newSkolem
        let t ← openAll x t (.skolem c)
        let u ← openAll y u (.skolem c)
        U t u : Solve Unit).Ensures r Q E)
    (left : ∀ m, a = .mvar m → (S m b).Ensures r Q E)
    (right : ∀ m, b = .mvar m → (S m a).Ensures r Q E)
    (clash : a.Clashes b → (mismatch a b : Solve Unit).Ensures r Q E) :
    (descend U S a b).Ensures r Q E := by
  cases a.meeting b with
  | arrow k p q k' p' q' => exact arrow k p q k' p' q' rfl rfl
  | app k f x k' f' x' => exact app k f x k' f' x' rfl rfl
  | all k x t k' y u => exact all k x t k' y u rfl rfl
  | left m =>
    rw [descend_left]
    exact left m rfl
  | right _ m ha =>
    rw [descend_right m ha]
    exact right m rfl
  | clash _ _ h =>
    rw [descend_clash h]
    exact clash h

/-- A metavariable is made equal to a type through the solutions that there are, and is solved
where there are none. -/
theorem ensures_pursue
    (same : t = .mvar m → Q () r)
    (solved : ∀ u, r.table.solution? m = some u → (U u t).Ensures r Q E)
    (follow : ∀ m' u, r.table.solution? m = none → t = .mvar m' → r.table.solution? m' = some u →
      (S m u).Ensures r Q E)
    (settles : r.table.solution? m = none → t ≠ .mvar m →
      (∀ m', t = .mvar m' → r.table.solution? m' = none) → (settle m t).Ensures r Q E) :
    (pursue U S m t).Ensures r Q E := by
  by_cases htm : t = .mvar m
  · subst htm
    rw [pursue_self]
    exact same rfl
  unfold Ensures
  cases hm : r.table.solution? m with
  | some u =>
    rw [pursue_solved htm hm]
    exact solved u hm
  | none =>
    by_cases hk : ∃ k u, t = .mvar k ∧ r.table.solution? k = some u
    · obtain ⟨k, u, rfl, hu⟩ := hk
      rw [pursue_follow htm hm hu]
      exact follow k u hm rfl hu
    · have hother : ∀ k, t = .mvar k → r.table.solution? k = none := fun k hkt =>
        Option.eq_none_iff_forall_ne_some.2 fun u hu => hk ⟨k, u, hkt, hu⟩
      rw [pursue_settle htm hm hother]
      exact settles hm htm hother

end

section

variable {n : Nat} {a b t : Ty} {m : MVar} {r : Run} {Q : Unit → Run → Prop}
  {E : Stop TypeError → Run → Prop}

/-- Unification stops at equal types, descends into types of the same form, solves a metavariable,
or fails. -/
theorem ensures_unifyWithin
    (same : a = b → Q () (Run.log (.unify a b) r).2)
    (arrow : ∀ k p q k' p' q', a = .arrow k p q → b = .arrow k' p' q' →
      (do unifyWithin n p p'; unifyWithin n q q' : Solve Unit).Ensures
        (Run.log (.unify a b) r).2 Q E)
    (app : ∀ k f x k' f' x', a = .app k f x → b = .app k' f' x' →
      (do unifyWithin n f f'; unifyWithin n x x' : Solve Unit).Ensures
        (Run.log (.unify a b) r).2 Q E)
    (all : ∀ k x t k' y u, a = .all k x t → b = .all k' y u →
      (do
        let c ← Run.newSkolem
        let t ← openAll x t (.skolem c)
        let u ← openAll y u (.skolem c)
        unifyWithin n t u : Solve Unit).Ensures (Run.log (.unify a b) r).2 Q E)
    (left : ∀ m, a = .mvar m → (solveWithin n m b).Ensures (Run.log (.unify a b) r).2 Q E)
    (right : ∀ m, b = .mvar m → (solveWithin n m a).Ensures (Run.log (.unify a b) r).2 Q E)
    (clash : a ≠ b → a.Clashes b → (mismatch a b : Solve Unit).Ensures
      (Run.log (.unify a b) r).2 Q E) :
    (unifyWithin (n + 1) a b).Ensures r Q E := by
  rw [unifyWithin_succ, ensures_bind, ensures_lift]
  by_cases hab : a = b
  · rw [if_pos hab]
    exact same hab
  · rw [if_neg hab]
    exact ensures_descend arrow app all left right (clash hab)

/-- A metavariable is made equal to a type through the solutions that there are, and is solved
where there are none. -/
theorem ensures_solveWithin
    (same : t = .mvar m → Q () (Run.log (.solve m t) r).2)
    (solved : ∀ u, r.table.solution? m = some u →
      (unifyWithin n u t).Ensures (Run.log (.solve m t) r).2 Q E)
    (follow : ∀ m' u, r.table.solution? m = none → t = .mvar m' → r.table.solution? m' = some u →
      (solveWithin n m u).Ensures (Run.log (.solve m t) r).2 Q E)
    (settles : r.table.solution? m = none → t ≠ .mvar m →
      (∀ m', t = .mvar m' → r.table.solution? m' = none) →
      (settle m t).Ensures (Run.log (.solve m t) r).2 Q E) :
    (solveWithin (n + 1) m t).Ensures r Q E := by
  rw [solveWithin_succ, ensures_bind, ensures_lift]
  rw [← r.table_log (.solve m t)] at solved follow settles
  exact ensures_pursue same solved follow settles

theorem ensures_settle
    (blocked : ∀ why, obstacle? r.table m t = some why →
      E (.error (.escape m (prune t r).1 why)) (prune t r).2)
    (free : obstacle? r.table m t = none → (assign m t).Ensures r Q E) :
    (settle m t).Ensures r Q E := by
  simp only [settle, ensures_bind, ensures_get]
  cases h : obstacle? r.table m t with
  | some why => exact blocked why h
  | none => exact free h

/-- Solving an unsolved metavariable fails, and changes nothing, or writes its slot. -/
theorem ensures_assign_of_unsolved (hm : r.table.solution? m = none)
    (fails : ∀ why, E (.error why) r)
    (write : r.table.owns m → Q () { r with table := r.table.write m t }) :
    (assign m t).Ensures r Q E := by
  unfold Ensures assign
  by_cases ho : r.table.owns m
  · by_cases ht : t = .absent
    · simpa [ho, ht] using fails _
    · simpa [ho, ht, Table.solved, hm] using write ho
  · simpa [ho] using fails _

/-- Solving an owned and unsolved metavariable fails only for an absent type. -/
theorem ensures_assign (ho : r.table.owns m) (hm : r.table.solution? m = none)
    (absent : t = .absent → E (.error (.absentSolution m)) r)
    (write : t ≠ .absent → Q () { r with table := r.table.write m t }) :
    (assign m t).Ensures r Q E := by
  by_cases ht : t = .absent
  · simpa [Ensures, assign, ho, ht] using absent ht
  · simpa [Ensures, assign, ho, ht, Table.solved, hm] using write ht

end

/-! ## Subsumption -/

/-- Subsumption opens a quantifier of the expected type, or else one of the given type, or else
unifies. -/
theorem ensures_subsumeWithin {n : Nat} {scope : Scope} {a b : Ty} {r : Run}
    {Q : Unit → Run → Prop} {E : Stop TypeError → Run → Prop}
    (right : ∀ k x t, b = .all k x t →
      (do
        let c ← Run.newSkolem
        let t ← openAll x t (.skolem c)
        subsumeWithin n (scope.insert c) a t : Solve Unit).Ensures (Run.log (.subsume a b) r).2 Q E)
    (left : ∀ k x t, a = .all k x t →
      (do
        let m ← Run.newMVar scope
        let t ← openAll x t (.mvar m)
        subsumeWithin n scope t b : Solve Unit).Ensures (Run.log (.subsume a b) r).2 Q E)
    (base : (∀ k x t, b ≠ .all k x t) → (∀ k x t, a ≠ .all k x t) →
      (unify a b).Ensures (Run.log (.subsume a b) r).2 Q E) :
    (subsumeWithin (n + 1) scope a b).Ensures r Q E := by
  unfold subsumeWithin
  simp only [ensures_bind, ensures_lift]
  split
  · exact right _ _ _ rfl
  · exact left _ _ _ rfl
  · rename_i ha hb
    exact base (fun k x t h => hb k x t h) fun k x t h => ha k x t h

theorem subsumeWithin_right (n : Nat) (scope : Scope) (a : Ty) (k : Nat) (x : String) (t : Ty) :
    subsumeWithin (n + 1) scope a (.all k x t) = (do
      Run.log (.subsume a (.all k x t))
      let c ← Run.newSkolem
      let t ← openAll x t (.skolem c)
      subsumeWithin n (scope.insert c) a t) := by
  cases a <;> rfl

theorem subsumeWithin_left (n : Nat) (scope : Scope) (k : Nat) (x : String) (t : Ty) {b : Ty}
    (hb : ∀ k x t, b ≠ .all k x t) :
    subsumeWithin (n + 1) scope (.all k x t) b = (do
      Run.log (.subsume (.all k x t) b)
      let m ← Run.newMVar scope
      let t ← openAll x t (.mvar m)
      subsumeWithin n scope t b) := by
  cases b with
  | all k x t => exact absurd rfl (hb k x t)
  | _ => rfl

theorem subsumeWithin_base (n : Nat) (scope : Scope) {a b : Ty} (ha : ∀ k x t, a ≠ .all k x t)
    (hb : ∀ k x t, b ≠ .all k x t) :
    subsumeWithin (n + 1) scope a b = (do
      Run.log (.subsume a b)
      unify a b) := by
  cases b with
  | all k x t => exact absurd rfl (hb k x t)
  | _ =>
    cases a with
    | all k x t => exact absurd rfl (ha k x t)
    | _ => rfl

/-! ## Parameters -/

section

variable {n : Nat} {scope : Scope} {args : List Expr} {t : Ty} {r : Run}

/-- Exposing opens a quantifier, takes a function type apart, follows or solves a metavariable, or
fails. -/
theorem ensures_exposeWithin {Q : Exposed → Run → Prop} {E : Stop TypeError → Run → Prop}
    (all : ∀ k x body, t = .all k x body →
      (do
        let m ← Run.newMVar scope
        let t ← openAll x body (.mvar m)
        exposeWithin scope args n t : Solve Exposed).Ensures r Q E)
    (arrow : ∀ k p q, t = .arrow k p q → Q ⟨p, q⟩ r)
    (solved : ∀ m u, t = .mvar m → r.table.solution? m = some u →
      (exposeWithin scope args n u).Ensures r Q E)
    (unsolved : ∀ m, t = .mvar m → r.table.solution? m = none → (exposeMVar m).Ensures r Q E)
    (other : (∀ k x body, t ≠ .all k x body) → (∀ k p q, t ≠ .arrow k p q) →
      (∀ m, t ≠ .mvar m) → E (.error (.notFunction (prune t r).1 args)) (prune t r).2) :
    (exposeWithin scope args (n + 1) t).Ensures r Q E := by
  cases t with
  | all k x body => simpa [exposeWithin] using all k x body rfl
  | arrow k p q => simpa [exposeWithin] using arrow k p q rfl
  | mvar m =>
    simp only [exposeWithin, ensures_bind, ensures_get]
    cases hm : r.table.solution? m with
    | some u => exact solved m u rfl hm
    | none => exact unsolved m rfl hm
  | _ => simpa [exposeWithin] using other (by simp) (by simp) (by simp)

namespace Parameters

/-- The obligations are the arguments with the types taken for them. -/
theorem pending_eq (ps : Parameters args) :
    ps.pending = List.zipWith Obligation.mk args ps.types := by
  obtain ⟨rest, hargs⟩ := ps.matched
  have hzip : ∀ l : List Obligation,
      List.zipWith Obligation.mk (l.map (·.arg) ++ rest) (l.map (·.type)) = l := by
    intro l
    induction l with
    | nil => exact List.zipWith_nil_right
    | cons o l ih => simp [ih]
  calc ps.pending = List.zipWith Obligation.mk (ps.pending.map (·.arg) ++ rest) ps.types :=
        (hzip ps.pending).symm
    _ = List.zipWith Obligation.mk args ps.types := by rw [hargs]

/-- Take a parameter off the type of a head for every argument, or stop. Returns the types of the
parameters and the type of the whole application. -/
def takeAll (scope : Scope) (t : Ty) (args : List Expr) : Solve (List Ty × Ty) := do
  let ps ← take scope t args
  let result ← ps.answer
  return (ps.types, result)

theorem takeAll_nil (scope : Scope) (t : Ty) : takeAll scope t [] = pure ([], t) := rfl

/-- Taking parameters for several arguments is exposing one, and taking the others off what is
left. -/
theorem takeAll_cons (scope : Scope) (t : Ty) (arg : Expr) (args : List Expr) :
    takeAll scope t (arg :: args) = (do
      let ex ← expose scope (arg :: args) t
      let ps ← takeAll scope ex.rest args
      return (ex.param :: ps.1, ps.2)) := by
  funext r
  simp only [takeAll, bind, EStateM.bind, Action.lift_apply, take]
  cases hex : expose scope (arg :: args) t r with
  | error stop r' => rfl
  | ok ex r' =>
    simp only
    obtain ⟨⟨pending, result, matched⟩, r''⟩ := take scope ex.rest args r'
    cases result <;> rfl

/-- Both ways of taking parameters leave the same run. -/
theorem ensures_takeAll_run {P : Run → Prop}
    (h : (takeAll scope t args).Ensures r (fun _ r' => P r') fun _ r' => P r') :
    P (take scope t args r).2 := by
  simp only [takeAll, answer, ensures_bind, ensures_lift] at h
  cases hr : (take scope t args r).1.result with
  | error stop => simpa [hr] using h
  | ok result => simpa [hr] using h

end Parameters

end

/-! ## Inference -/

/-- Why an action of the solver stops, once it is known at which expression. -/
def Stop.atExpr (e : Expr) : Stop TypeError → Stop Rejection
  | .error why => .error ⟨why, e⟩
  | .fault f => .fault f

@[simp]
theorem ensures_solving {α : Type} {e : Expr} {x : Solve α} {r : Run} {Q : α → Run → Prop}
    {E : Stop Rejection → Run → Prop} :
    (solving e x).Ensures r Q E ↔ x.Ensures r Q fun stop r' => E (stop.atExpr e) r' := by
  unfold Ensures
  rw [solving_apply]
  cases x r with
  | ok a r' => rfl
  | error stop r' => cases stop <;> rfl

/-- Expecting a type opens its quantifiers and follows solutions. -/
theorem ensures_skolemizeWithin {n : Nat} {e : Expr} {scope : Scope} {t : Ty} {r : Run}
    {Q : Scope × Ty → Run → Prop} {E : Stop Rejection → Run → Prop}
    (solved : ∀ m u, t = .mvar m → r.table.solution? m = some u →
      (skolemizeWithin e n scope u).Ensures (Run.log (.check e t) r).2 Q E)
    (all : ∀ k x body, t = .all k x body →
      (do
        let c ← Run.newSkolem
        let t ← openAll x body (.skolem c)
        skolemizeWithin e n (scope.insert c) t : Infer (Scope × Ty)).Ensures
          (Run.log (.check e t) r).2 Q E)
    (done : (∀ k x body, t ≠ .all k x body) → (∀ m, t = .mvar m → r.table.solution? m = none) →
      Q (scope, t) (Run.log (.check e t) r).2) :
    (skolemizeWithin e (n + 1) scope t).Ensures r Q E := by
  cases t with
  | all k x body => simpa [skolemizeWithin_succ] using all k x body rfl
  | mvar m =>
    simp only [skolemizeWithin_succ, ensures_bind, ensures_lift, ensures_get, Run.table_log]
    cases hm : r.table.solution? m with
    | some u => exact solved m u rfl hm
    | none => exact done (by simp) fun k hk => by cases hk; exact hm
  | _ =>
    simp only [skolemizeWithin_succ, ensures_bind, ensures_lift, ensures_pure]
    exact done (by simp) (by simp)

/-- Check arguments against the parameters taken for them, in order. -/
def checkArgs (names : Names) (scope : Scope) (args : List Expr) (params : List Ty) : Infer Unit :=
  (List.zipWith Obligation.mk args params).forM fun o => check names scope o.arg o.type

theorem checkArgs_cons (names : Names) (scope : Scope) (a : Expr) (args : List Expr) (p : Ty)
    (params : List Ty) : checkArgs names scope (a :: args) (p :: params) =
      (do check names scope a p; checkArgs names scope args params) := rfl

theorem Parameters.forM_pending {args : List Expr} (ps : Parameters args) (names : Names)
    (scope : Scope) :
    (ps.pending.attach.forM fun o => Inferring.check names scope o.val.arg o.val.type) =
      checkArgs names scope args ps.types := by
  rw [checkArgs, ← ps.pending_eq]
  conv => rhs; rw [← List.attach_map_subtype_val ps.pending]
  simp only [List.forM_eq_forM, List.forM_map]
  rfl

/-- To take parameters and go on with the type that is left is to take them all and go on. -/
theorem take_bind {α : Type} (scope : Scope) (t : Ty) (args : List Expr) (e : Expr)
    (k : List Ty → Ty → Infer α) :
    (do
      let ps ← Parameters.take scope t args
      let result ← solving e ps.answer
      k ps.types result) = (do
      let ps ← solving e (Parameters.takeAll scope t args)
      k ps.1 ps.2) := by
  funext r
  simp only [Parameters.takeAll, bind, EStateM.bind, Action.lift_apply, solving_apply]
  obtain ⟨⟨pending, result, matched⟩, r'⟩ := Parameters.take scope t args r
  cases result with
  | ok u => rfl
  | error stop => cases stop <;> rfl

/-- Check an expression against a type that is neither quantified nor a solved metavariable. -/
def checkAt (names : Names) (scope : Scope) : Expr → Ty → Infer Unit
  | .fn x body, .arrow _ param result => check (names.insert x param) scope body result
  | .app f a, t => do
    let ft ← synth names scope (Expr.app f a).head
    let ps ← solving (.app f a) (Parameters.takeAll scope ft (Expr.app f a).args)
    solving (.app f a) (subsume scope ps.2 t)
    checkArgs names scope (Expr.app f a).args ps.1
  | e, t => do
    let found ← synth names scope e
    solving e (subsume scope found t)

theorem check_eq (names : Names) (scope : Scope) (e : Expr) (t : Ty) :
    check names scope e t = (do
      let p ← skolemize e scope t
      checkAt names p.1 e p.2) := by
  rw [check, Inferring.check]
  refine bind_congr fun p => ?_
  obtain ⟨scope, t⟩ := p
  cases e with
  | app f a =>
    simp only [checkAt, Parameters.forM_pending]
    refine bind_congr fun ft => ?_
    exact take_bind scope ft (Expr.app f a).args (.app f a) fun params result => do
      solving (.app f a) (subsume scope result t)
      checkArgs names scope (Expr.app f a).args params
  | fn x body => cases t <;> rfl
  | _ => rfl

theorem Names.find?_insert_self (names : Names) (x : String) (t : Ty) :
    (names.insert x t).find? x = if t = .absent then .error (.untyped x) else .ok (some t) := by
  unfold Names.find? Names.insert Locals.find?
  simp only [Layer.find?_insert, if_true]
  cases t <;> rfl

theorem Names.find?_insert_of_ne (names : Names) {x y : String} (h : y ≠ x) (t : Ty) :
    (names.insert x t).find? y = names.find? y := by
  unfold Names.find? Names.insert Locals.find?
  simp only [Layer.find?_insert, h, if_false]

theorem synth_var (names : Names) (scope : Scope) (x : String) :
    synth names scope (.var x) = (do
      Run.log (.synth (.var x))
      match names.find? x with
      | .ok (some t) => return t
      | .ok none => reject (.var x) (.unbound x)
      | .error f => throw (.fault f)) := by
  rw [synth, Inferring.synth]
  rfl

theorem synth_ann (names : Names) (scope : Scope) (e : Expr) {t : Ty} (h : t ≠ .absent) :
    synth names scope (.ann e t) = (do
      Run.log (.synth (.ann e t))
      check names scope e t
      return t) := by
  rw [synth, Inferring.synth]
  · rfl
  · exact h

theorem synth_app (names : Names) (scope : Scope) (f a : Expr) :
    synth names scope (.app f a) = (do
      Run.log (.synth (.app f a))
      let ft ← synth names scope (Expr.app f a).head
      let ps ← solving (.app f a) (Parameters.takeAll scope ft (Expr.app f a).args)
      checkArgs names scope (Expr.app f a).args ps.1
      return ps.2) := by
  rw [synth, Inferring.synth]
  simp only [Parameters.forM_pending]
  refine bind_congr fun _ => bind_congr fun ft => ?_
  exact take_bind scope ft (Expr.app f a).args (.app f a) fun params result => do
    checkArgs names scope (Expr.app f a).args params
    return result

theorem synth_fn (names : Names) (scope : Scope) (x : String) (body : Expr) :
    synth names scope (.fn x body) = (do
      Run.log (.synth (.fn x body))
      let param ← Run.newMVar scope
      let result ← Run.newMVar scope
      check (names.insert x (.mvar param)) scope body (.mvar result)
      Run.newArrow (.mvar param) (.mvar result)) := by
  rw [synth, Inferring.synth]
  rfl

/-- There is no rule to synthesize a type for the expression. -/
def Expr.Unruled (e : Expr) : Prop :=
  e = .absent ∨ (∃ k, e = .unknown k) ∨ ∃ e', e = .ann e' .absent

/-- Synthesis fails on expressions of no known form. -/
theorem synth_other (names : Names) (scope : Scope) {e : Expr} (h : e.Unruled) :
    synth names scope e = (do
      Run.log (.synth e)
      reject e (.unsynthesizable e)) := by
  unfold synth Inferring.synth
  rcases h with rfl | ⟨k, rfl⟩ | ⟨e', rfl⟩ <;> rfl

/-- **Induction over inference.** Checking an expression relies on checking and synthesizing smaller
ones, and on synthesizing the expression itself. -/
theorem infer_induction {C S : Expr → Prop}
    (synth : ∀ e, (∀ e', e'.size < e.size → C e' ∧ S e') → S e)
    (check : ∀ e, S e → (∀ e', e'.size < e.size → C e' ∧ S e') → C e) (e : Expr) : C e ∧ S e := by
  have main : ∀ n (e : Expr), e.size < n → C e ∧ S e := by
    intro n
    induction n with
    | zero => intro e he; omega
    | succ n ih =>
      intro e he
      have smaller : ∀ e', e'.size < e.size → C e' ∧ S e' := fun e' he' => ih e' (by omega)
      have hs := synth e smaller
      exact ⟨check e hs smaller, hs⟩
  exact main _ e (Nat.lt_succ_self _)

end RankN
