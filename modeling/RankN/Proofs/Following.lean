import RankN.Proofs.Mirror

/-!
# Inference follows in a mirror

From two runs that mirror each other, each function of the solver and of inference succeeds on the
right, with answers that are alike, if it does on the left, or else runs out of steps there.

Both sides take the same branches, since types that are alike have the same constructors outside of
their quantifiers, with one exception: unification does not look into two types that are the same
node, and nodes of one run may be the same where those of the other are not. In this case the two
types have the same form, and unifying types of the same form touches no table
(`unifyWithin_idles`), however much of them is looked into.
-/

namespace RankN

open RankN.Action

variable {B : String → Prop}

/-! ## Types of the same form -/

section

variable {r r' : Run} {a b t : Ty} {m : MVar}

theorem Run.Idles.of_table {P : Ty → Prop} (hr : r.Valid P) (hr' : r'.Valid P)
    (he : r.Extends r') (h : r'.table = r.table) : r.Idles r' :=
  ⟨h, by rw [hr'.count, hr.count, h], he.skolems⟩

/-- What a type means in a run, up to renaming. -/
abbrev Run.means (r : Run) (t : Ty) : Nameless := (r.table.expand t).nameless

theorem Run.means_unsolved (hm : r.table.solution? m = none) :
    r.means (.mvar m) = .const (.mvar m) := by
  rw [means, Table.expand_unsolved hm]
  rfl

/-- Types that clash do not mean the same. -/
theorem means_ne_of_clashes (hab : a ≠ b) (h : a.Clashes b) : r.means a ≠ r.means b := by
  intro heq
  cases a with
  | mvar m => exact h
  | _ =>
    cases b with
    | mvar m => exact h
    | _ => simp_all [Run.means, Ty.nameless, Ty.Clashes]

/-- Only the metavariable itself means the constant of an unsolved metavariable. -/
theorem means_ne_of_unsolved (hm : r.table.solution? m = none) (htm : t ≠ .mvar m)
    (ht : ∀ m', t = .mvar m' → r.table.solution? m' = none) : r.means (.mvar m) ≠ r.means t := by
  intro heq
  rw [Run.means_unsolved hm] at heq
  cases t with
  | mvar m' =>
    rw [Run.means_unsolved (ht m' rfl)] at heq
    simp_all
  | _ => simp [Run.means, Ty.nameless] at heq

/-- **Unifying types that mean the same touches no table.** -/
theorem unifyWithin_idles (n : Nat) :
    (∀ (a b : Ty) (r : Run), r.Valid (Ty.Named B []) → a.Of (Ty.Named B []) r → b.Of (Ty.Named B []) r →
      r.means a = r.means b → Action.Idles (unifyWithin n a b) r) ∧
    ∀ (m : MVar) (t : Ty) (r : Run), r.Valid (Ty.Named B []) → r.table.owns m → t.Of (Ty.Named B []) r →
      r.means (.mvar m) = r.means t → Action.Idles (solveWithin n m t) r := by
  have hP := Ty.stable_named B
  induction n with
  | zero =>
    refine ⟨fun a b r _ _ _ _ => ?_, fun m t r _ _ _ _ => ?_⟩
    · rw [unifyWithin]
      rfl
    · rw [solveWithin]
      rfl
  | succ n ih =>
    -- Two parts that mean the same are unified one after the other.
    have both : ∀ {p p' q q' : Ty} {r : Run}, r.Valid (Ty.Named B []) → p.Of (Ty.Named B []) r →
        p'.Of (Ty.Named B []) r → q.Of (Ty.Named B []) r → q'.Of (Ty.Named B []) r → r.means p = r.means p' →
        r.means q = r.means q' →
        Action.Idles (do unifyWithin n p p'; unifyWithin n q q' : Solve Unit) r := by
      intro p p' q q' r hr hp hp' hq hq' hpp hqq
      refine ensures_bind.2 ((ih.1 p p' r hr hp hp' hpp).mono (fun _ r₁ h₁ => ?_) fun _ _ h => h)
      refine (ih.1 q q' r₁ (h₁.valid hr) (h₁.of hq) (h₁.of hq') ?_).after h₁
      rwa [Run.means, Run.means, h₁.table]
    refine ⟨fun a b r hr ha hb heq => ?_, fun m t r hr ho ht heq => ?_⟩
    · have hlog : r.Idles (Run.log (.unify a b) r).2 := (r.agrees_log _).idles
      have hr₁ := hlog.valid hr
      have ha₁ := hlog.of ha
      have hb₁ := hlog.of hb
      rw [Run.means, Run.means, ← hlog.table] at heq
      refine ensures_unifyWithin (fun _ => hlog) ?_ ?_ ?_ ?_ ?_
        (fun hab hclash => (means_ne_of_clashes hab hclash heq).elim)
      · intro k p q k' p' q' hpq hpq'
        subst hpq hpq'
        rw [Ty.of_arrow hP] at ha₁ hb₁
        simp only [Table.expand_arrow, Ty.nameless, Ty.read, Nameless.arrow.injEq] at heq
        exact (both hr₁ ha₁.1 hb₁.1 ha₁.2 hb₁.2 heq.1 heq.2).after hlog
      · intro k f x k' f' x' hfx hfx'
        subst hfx hfx'
        obtain ⟨hf, hx⟩ := ha₁.app hP
        obtain ⟨hf', hx'⟩ := hb₁.app hP
        simp only [Table.expand_app, Ty.nameless, Ty.read, Nameless.app.injEq] at heq
        exact (both hr₁ hf hf' hx hx' heq.1 heq.2).after hlog
      · intro k x t k' y u hxt hyu
        subst hxt hyu
        refine ensures_opens hP hr₁ ha₁ hb₁ fun t' u' r₂ hr₂ he₂ ho => ?_
        have hidle := hlog.trans (.of_table hr₁ hr₂ he₂ ho.table)
        refine (ih.1 t' u' r₂ hr₂ ho.left ho.right ?_).after hidle
        simp only [Table.expand_all, Ty.nameless, Ty.read, Nameless.all.injEq] at heq
        rw [Run.means, Run.means, ho.expand_left, ho.expand_right, Ty.nameless_replace fun _ => rfl,
          Ty.nameless_replace fun _ => rfl, heq]
      · intro m hm
        subst hm
        exact (ih.2 m b _ hr₁ ha₁.owns hb₁ heq).after hlog
      · intro m hm
        subst hm
        exact (ih.2 m a _ hr₁ hb₁.owns ha₁ heq.symm).after hlog
    · have hlog : r.Idles (Run.log (.solve m t) r).2 := (r.agrees_log _).idles
      have hr₁ := hlog.valid hr
      have ht₁ := hlog.of ht
      have ho₁ := hlog.extends_.owns m ho
      refine ensures_solveWithin (fun _ => hlog) ?_ ?_ ?_
      · intro u hu
        refine (ih.1 u t _ hr₁ (hlog.of (hr.solutions m u hu)) ht₁ ?_).after hlog
        rwa [Run.means, Run.means, hlog.table, ← hr.acyclic.expand_solved hu]
      · intro m' u _ hm' hu
        refine (ih.2 m u _ hr₁ ho₁ (hlog.of (hr.solutions m' u hu)) ?_).after hlog
        rw [Run.means, Run.means, hlog.table, ← hr.acyclic.expand_solved hu, ← hm']
        exact heq
      · intro hm htm hother
        exact (means_ne_of_unsolved hm htm hother heq).elim

end

namespace Mirror

variable {w w' : Mirror B} {a b a' b' t t' : Ty} {m m' : MVar} {scope scope' : Scope}

/-! ## Unification -/

/-- Types of the same form are unified on both sides without touching a table. -/
theorem sim_unifyWithin_of_form_eq (ha : w.Like a a') (hb : w.Like b b')
    (h : w.left.form a = w.left.form b) (n n' : Nat) :
    w.Sim (unifyWithin n a b) (unifyWithin n' a' b') fun _ _ _ => True := by
  have h' : w.right.form a' = w.right.form b' := by rw [← ha.form, h, hb.form]
  have hl := Labelled.nameless_eq ha.left.isOver hb.left.isOver h
  have hr := Labelled.nameless_eq ha.right.isOver hb.right.isOver h'
  refine sim_idle ?_ ?_
  · exact (unifyWithin_idles n).1 a b _ w.left.valid ha.left hb.left hl
  · exact (unifyWithin_idles n').1 a' b' _ w.right.valid ha.right hb.right hr

/-- Unification in `n` steps is followed, in any number of steps. -/
def UnifyFollows (B : String → Prop) (n : Nat) : Prop :=
  ∀ (w : Mirror B) (n' : Nat) (a b a' b' : Ty), w.Like a a' → w.Like b b' →
    w.Sim (unifyWithin n a b) (unifyWithin n' a' b') fun _ _ _ => True

/-- Solving in `n` steps is followed, in any number of steps. -/
def SolveFollows (B : String → Prop) (n : Nat) : Prop :=
  ∀ (w : Mirror B) (n' : Nat) (m m' : MVar) (t t' : Ty), w.Like (.mvar m) (.mvar m') →
    w.Like t t' → w.Sim (solveWithin n m t) (solveWithin n' m' t') fun _ _ _ => True

theorem descend_follows {n : Nat} (hunify : UnifyFollows B n) (hsolve : SolveFollows B n)
    (n' : Nat) (ha : w.Like a a') (hb : w.Like b b') :
    w.Sim (descend (unifyWithin n) (solveWithin n) a b)
      (descend (unifyWithin n') (solveWithin n') a' b') fun _ _ _ => True := by
  -- Parts that are alike are unified one after the other.
  have both : ∀ {p p₁ q q₁ p' p₁' q' q₁' : Ty}, w.Like p p' → w.Like p₁ p₁' → w.Like q q' →
      w.Like q₁ q₁' → w.Sim (do unifyWithin n p p₁; unifyWithin n q q₁ : Solve Unit)
        (do unifyWithin n' p' p₁'; unifyWithin n' q' q₁' : Solve Unit) fun _ _ _ => True :=
    fun hp hp₁ hq hq₁ => (hunify w n' _ _ _ _ hp hp₁).bind fun w₁ _ _ he _ =>
      hunify w₁ n' _ _ _ _ (hq.mono he) (hq₁.mono he)
  cases a.meeting b with
  | arrow k p q k₁ p₁ q₁ =>
    cases ha.alike with
    | arrow =>
      cases hb.alike with
      | arrow =>
        obtain ⟨hp, hq⟩ := Like.arrow.1 ha
        obtain ⟨hp₁, hq₁⟩ := Like.arrow.1 hb
        exact both hp hp₁ hq hq₁
  | app k f x k₁ f₁ x₁ =>
    cases ha.alike with
    | app =>
      cases hb.alike with
      | app => exact both ha.app.1 hb.app.1 ha.app.2 hb.app.2
  | all k x t k₁ y u =>
    cases ha.alike with
    | all =>
      cases hb.alike with
      | all =>
        refine sim_newSkolem.bind fun w₁ c c' he₁ hc => ?_
        refine (sim_openAll_skolem (ha.mono he₁) hc).bind fun w₂ t₂ t₂' he₂ ht => ?_
        refine (sim_openAll_skolem ((hb.mono he₁).mono he₂) (hc.mono he₂)).bind
          fun w₃ u₃ u₃' he₃ hu => ?_
        exact hunify w₃ n' _ _ _ _ (ht.mono he₃) hu
  | left m b =>
    cases ha.alike with
    | mvar =>
      rw [descend_left, descend_left]
      exact hsolve w n' _ _ _ _ ha hb
  | right a m hne =>
    cases hb.alike with
    | mvar =>
      have hne' : ∀ k, a' ≠ .mvar k := by
        intro k hk
        have halike := hk ▸ ha.alike
        cases halike
        exact hne _ rfl
      rw [descend_right m hne, descend_right _ hne']
      exact hsolve w n' _ _ _ _ hb ha
  | clash a b hclash =>
    rw [descend_clash hclash]
    refine sim_of_stops ?_
    unfold mismatch
    simp only [ensures_bind, ensures_lift, ensures_throw]

theorem unifyWithin_follows_step {n : Nat} (hunify : UnifyFollows B n)
    (hsolve : SolveFollows B n) : UnifyFollows B (n + 1) := by
  intro w n' a b a' b' ha hb
  cases n' with
  | zero =>
    rw [unifyWithin]
    exact sim_cyclic
  | succ n' =>
    by_cases hform : w.left.form a = w.left.form b
    · exact sim_unifyWithin_of_form_eq ha hb hform _ _
    · have hne : a ≠ b := fun hab => hform (by rw [hab])
      have hne' : a' ≠ b' := fun hab => hform (by rw [ha.form, hb.form, hab])
      rw [unifyWithin_succ, unifyWithin_succ, if_neg hne, if_neg hne']
      refine (sim_log _ _).bind fun w₁ _ _ he _ => ?_
      exact descend_follows hunify hsolve n' (ha.mono he) (hb.mono he)

theorem solveWithin_follows_step {n : Nat} (hunify : UnifyFollows B n)
    (hsolve : SolveFollows B n) : SolveFollows B (n + 1) := by
  intro w n' m m' t t' hm ht
  cases n' with
  | zero =>
    rw [solveWithin]
    exact sim_cyclic
  | succ n' =>
    rw [solveWithin, solveWithin]
    refine (sim_log _ _).bind fun w₁ _ _ he _ => ?_
    replace hm := hm.mono he
    replace ht := ht.mono he
    by_cases htm : t = .mvar m
    · rw [if_pos htm, if_pos ((hm.eq_mvar_iff ht).1 htm)]
      exact sim_pure trivial
    · rw [if_neg htm, if_neg (mt (hm.eq_mvar_iff ht).2 htm)]
      refine sim_get_bind ?_
      cases hu : w₁.left.run.table.solution? m with
      | some u =>
        obtain ⟨u', hu', hlike⟩ := hm.solved hu
        simp only [hu, hu']
        exact hunify w₁ n' _ _ _ _ hlike ht
      | none =>
        have hu' := hm.unsolved hu
        cases t with
        | mvar k =>
          cases ht.alike with
          | mvar =>
            cases hv : w₁.left.run.table.solution? k with
            | some v =>
              obtain ⟨v', hv', hlike⟩ := ht.solved hv
              simp only [hu, hu', hv, hv']
              exact hsolve w₁ n' _ _ _ _ hm hlike
            | none =>
              simp only [hu, hu', hv, ht.unsolved hv]
              exact sim_settle hm ht hu
        | _ =>
          cases ht.alike
          simp only [hu, hu']
          exact sim_settle hm ht hu

theorem unifyWithin_follows (n : Nat) : UnifyFollows B n ∧ SolveFollows B n := by
  induction n with
  | zero =>
    refine ⟨fun w n' a b a' b' _ _ => ?_, fun w n' m m' t t' _ _ => ?_⟩
    · rw [unifyWithin]
      exact sim_of_stops trivial
    · rw [solveWithin]
      exact sim_of_stops trivial
  | succ n ih =>
    exact ⟨unifyWithin_follows_step ih.1 ih.2, solveWithin_follows_step ih.1 ih.2⟩

theorem unify_follows (ha : w.Like a a') (hb : w.Like b b') :
    w.Sim (unify a b) (unify a' b') fun _ _ _ => True :=
  sim_get_bind ((unifyWithin_follows _).1 w _ _ _ _ _ ha hb)

/-! ## Subsumption -/

theorem subsumeWithin_follows (n n' : Nat) (hs : w.Scopes scope scope') (ha : w.Like a a')
    (hb : w.Like b b') :
    w.Sim (subsumeWithin n scope a b) (subsumeWithin n' scope' a' b') fun _ _ _ => True := by
  induction n generalizing n' w scope scope' a a' b b' with
  | zero =>
    rw [subsumeWithin]
    exact sim_of_stops trivial
  | succ n ih =>
    cases n' with
    | zero =>
      rw [subsumeWithin]
      exact sim_cyclic
    | succ n' =>
      cases hb.alike with
      | all =>
        rw [subsumeWithin_right, subsumeWithin_right]
        refine (sim_log _ _).bind fun w₁ _ _ he₁ _ => ?_
        refine sim_newSkolem.bind fun w₂ c c' he₂ hc => ?_
        have he := he₁.trans he₂
        refine (sim_openAll_skolem (hb.mono he) hc).bind fun w₃ t t' he₃ ht => ?_
        exact ih n' (((hs.mono he).insert hc).mono he₃) ((ha.mono he).mono he₃) ht
      | _ =>
        cases ha.alike with
        | all =>
          refine (sim_log _ _).bind fun w₁ _ _ he₁ _ => ?_
          refine (sim_newMVar (hs.mono he₁)).bind fun w₂ m m' he₂ hm => ?_
          have he := he₁.trans he₂
          refine (sim_openAll_mvar (ha.mono he) hm.1 hm.2.unsolved).bind fun w₃ t t' he₃ ht => ?_
          exact ih n' ((hs.mono he).mono he₃) ht ((hb.mono he).mono he₃)
        | _ => exact (sim_log _ _).bind fun w₁ _ _ he _ => unify_follows (ha.mono he) (hb.mono he)

theorem subsume_follows (hs : w.Scopes scope scope') (ha : w.Like a a') (hb : w.Like b b') :
    w.Sim (subsume scope a b) (subsume scope' a' b') fun _ _ _ => True :=
  sim_get_bind (subsumeWithin_follows _ _ hs ha hb)

/-! ## Parameters -/

/-- A parameter and what is left are alike. -/
def Exposes (w : Mirror B) (ex ex' : Exposed) : Prop :=
  w.Like ex.param ex'.param ∧ w.Like ex.rest ex'.rest

theorem exposeMVar_follows (hm : w.Like (.mvar m) (.mvar m'))
    (hu : w.left.run.table.solution? m = none) :
    w.Sim (exposeMVar m) (exposeMVar m') fun w' ex ex' => w'.Exposes ex ex' := by
  refine (sim_newMVar hm.scopes).bind fun w₁ p p' he₁ hp => ?_
  refine (sim_newMVar (hm.scopes.mono he₁)).bind fun w₂ q q' he₂ hq => ?_
  refine (sim_newArrow (hp.1.mono he₂) hq.1).bind fun w₃ t t' he₃ ht => ?_
  obtain ⟨ht, ⟨n, rfl⟩, htable⟩ := ht
  have hm₃ := hm.mono ((he₁.trans he₂).trans he₃)
  -- Nothing stands in the way of new metavariables of the same scope.
  have hu₃ : w₃.left.run.table.solution? m = none := by
    rw [htable, hq.2.solution, hp.2.solution, hu]
  have hexp : w₃.left.run.table.expand (.arrow n (.mvar p) (.mvar q)) =
      .arrow 0 (.mvar p) (.mvar q) := by
    rw [htable, hp.2.expand_arrow hq.2]
  have hfree : obstacle? w₃.left.run.table m (.arrow n (.mvar p) (.mvar q)) = none := by
    rw [obstacle?_eq_none w₃.left.valid.acyclic hu₃, hexp]
    refine ⟨?_, by simp [Ty.Fits, hp.2.scope, hq.2.scope]⟩
    simp [hp.2.ne_of_owns hm.left.owns, hq.2.ne_of_owns (he₁.left.owns m hm.left.owns)]
  refine (sim_assign hm₃ ht ⟨hm₃.left.owns, hu₃, ht.left, hfree⟩).bind fun w₄ _ _ he₄ _ => ?_
  have he := he₃.trans he₄
  exact sim_pure ⟨(hp.1.mono he₂).mono he, hq.1.mono he⟩

theorem exposeWithin_follows (args args' : List Expr) (n n' : Nat) (hs : w.Scopes scope scope')
    (ht : w.Like t t') : w.Sim (exposeWithin scope args n t) (exposeWithin scope' args' n' t')
      fun w' ex ex' => w'.Exposes ex ex' := by
  induction n generalizing n' w t t' with
  | zero =>
    rw [exposeWithin]
    exact sim_of_stops trivial
  | succ n ih =>
    cases n' with
    | zero =>
      rw [exposeWithin]
      exact sim_cyclic
    | succ n' =>
      cases ht.alike with
      | all =>
        refine (sim_newMVar hs).bind fun w₁ m m' he₁ hm => ?_
        refine (sim_openAll_mvar (ht.mono he₁) hm.1 hm.2.unsolved).bind fun w₂ u u' he₂ hu => ?_
        exact ih n' ((hs.mono he₁).mono he₂) hu
      | arrow => exact sim_pure (Like.arrow.1 ht)
      | @mvar m m' _ =>
        refine sim_get_bind ?_
        cases hu : w.left.run.table.solution? m with
        | some u =>
          obtain ⟨u', hu', hlike⟩ := ht.solved hu
          simp only [hu']
          exact ih n' hs hlike
        | none =>
          simp only [ht.unsolved hu]
          exact exposeMVar_follows ht hu
      | _ =>
        refine sim_of_stops (ensures_exposeWithin ?_ ?_ ?_ ?_ fun _ _ _ => trivial)
        all_goals simp

theorem expose_follows (args args' : List Expr) (hs : w.Scopes scope scope') (ht : w.Like t t') :
    w.Sim (expose scope args t) (expose scope' args' t') fun w' ex ex' => w'.Exposes ex ex' :=
  sim_get_bind (exposeWithin_follows args args' _ _ hs ht)

/-- The parameters taken and what is left are alike. -/
theorem takeAll_follows {args args' : List Expr} (hlen : args.length = args'.length)
    (hs : w.Scopes scope scope') (ht : w.Like t t') :
    w.Sim (Parameters.takeAll scope t args) (Parameters.takeAll scope' t' args')
      fun w' ps ps' => List.Forall₂ w'.Like ps.1 ps'.1 ∧ w'.Like ps.2 ps'.2 := by
  induction args generalizing args' w t t' with
  | nil =>
    cases args' with
    | nil => exact sim_pure ⟨.nil, ht⟩
    | cons arg' args' => simp at hlen
  | cons arg args ih =>
    cases args' with
    | nil => simp at hlen
    | cons arg' args' =>
      rw [Parameters.takeAll_cons, Parameters.takeAll_cons]
      refine (expose_follows (arg :: args) (arg' :: args') hs ht).bind fun w₁ ex ex' he₁ hex => ?_
      refine (ih (by simpa using hlen) (hs.mono he₁) hex.2).bind fun w₂ ps ps' he₂ hps => ?_
      exact sim_pure ⟨.cons (hex.1.mono he₂) hps.1, hps.2⟩

/-! ## Expected types -/

theorem skolemizeWithin_follows (e e' : Expr) (n n' : Nat) (hs : w.Scopes scope scope')
    (ht : w.Like t t') : w.Sim (skolemizeWithin e n scope t) (skolemizeWithin e' n' scope' t')
      fun w' p p' => w'.Scopes p.1 p'.1 ∧ w'.Like p.2 p'.2 := by
  induction n generalizing n' w scope scope' t t' with
  | zero =>
    rw [skolemizeWithin_zero]
    exact sim_of_stops trivial
  | succ n ih =>
    cases n' with
    | zero =>
      rw [skolemizeWithin_zero]
      exact sim_cyclic
    | succ n' =>
      cases ht.alike with
      | all =>
        refine (sim_log _ _).bind fun w₁ _ _ he₁ _ => ?_
        refine sim_newSkolem.bind fun w₂ c c' he₂ hc => ?_
        have he := he₁.trans he₂
        refine (sim_openAll_skolem (ht.mono he) hc).bind fun w₃ u u' he₃ hu => ?_
        exact ih n' (((hs.mono he).insert hc).mono he₃) hu
      | @mvar m m' _ =>
        refine (sim_log _ _).bind fun w₁ _ _ he₁ _ => sim_get_bind ?_
        replace ht := ht.mono he₁
        cases hu : w₁.left.run.table.solution? m with
        | some u =>
          obtain ⟨u', hu', hlike⟩ := ht.solved hu
          simp only [hu']
          exact ih n' (hs.mono he₁) hlike
        | none =>
          simp only [ht.unsolved hu]
          exact sim_pure ⟨hs.mono he₁, ht⟩
      | _ => exact (sim_log _ _).bind fun w₁ _ _ he _ => sim_pure ⟨hs.mono he, ht.mono he⟩

theorem skolemize_follows (e e' : Expr) (hs : w.Scopes scope scope') (ht : w.Like t t') :
    w.Sim (skolemize e scope t) (skolemize e' scope' t')
      fun w' p p' => w'.Scopes p.1 p'.1 ∧ w'.Like p.2 p'.2 :=
  sim_get_bind (skolemizeWithin_follows e e' _ _ hs ht)

end Mirror

/-! ## Inference -/

/-- The second expression is the first one with other annotations, related by `R`. -/
inductive Expr.Retyped (R : Ty → Ty → Prop) : Expr → Expr → Prop
  | var (x : String) : Retyped R (.var x) (.var x)
  | fn (x : String) {body body' : Expr} : Retyped R body body' →
    Retyped R (.fn x body) (.fn x body')
  | app {f f' a a' : Expr} : Retyped R f f' → Retyped R a a' → Retyped R (.app f a) (.app f' a')
  | ann {e e' : Expr} {t t' : Ty} : Retyped R e e' → R t t' → Retyped R (.ann e t) (.ann e' t')
  | unknown (k : String) : Retyped R (.unknown k) (.unknown k)
  | absent : Retyped R .absent .absent

section

variable {R R' : Ty → Ty → Prop} {e e' : Expr}

theorem Expr.Retyped.head (h : e.Retyped R e') : e.head.Retyped R e'.head := by
  induction h with
  | app _ _ ihf => exact ihf
  | ann he ht => exact .ann he ht
  | fn x hb => exact .fn x hb
  | var x => exact .var x
  | unknown k => exact .unknown k
  | absent => exact .absent

theorem Expr.Retyped.args (h : e.Retyped R e') : List.Forall₂ (Expr.Retyped R) e.args e'.args := by
  induction h with
  | app _ ha ihf => exact List.rel_append ihf (.cons ha .nil)
  | _ => exact .nil

end

namespace Mirror

variable {w w' : Mirror B} {a b a' b' t t' : Ty} {scope scope' : Scope} {e e' : Expr}
  {names names' : Names}

/-- Names with a type on the left have one that is alike on the right. -/
def NamesLike (w : Mirror B) (names names' : Names) : Prop :=
  ∀ x t, names.find? x = .ok (some t) → ∃ t', names'.find? x = .ok (some t') ∧ w.Like t t'

theorem NamesLike.mono (h : w.NamesLike names names') (he : w.Extends w') :
    w'.NamesLike names names' := by
  intro x t hx
  obtain ⟨t', hx', ht⟩ := h x t hx
  exact ⟨t', hx', ht.mono he⟩

theorem Like.absent_iff (h : w.Like t t') : t = .absent ↔ t' = .absent := by
  cases h.alike <;> simp

theorem NamesLike.insert (h : w.NamesLike names names') (x : String) (ht : w.Like t t') :
    w.NamesLike (names.insert x t) (names'.insert x t') := by
  intro y u hy
  by_cases hyx : y = x
  · subst hyx
    rw [Names.find?_insert_self] at hy
    by_cases habsent : t = .absent
    · simp [habsent] at hy
    · rw [if_neg habsent] at hy
      cases hy
      exact ⟨t', by rw [Names.find?_insert_self, if_neg (mt ht.absent_iff.2 habsent)], ht⟩
  · rw [Names.find?_insert_of_ne names hyx] at hy
    rw [Names.find?_insert_of_ne names' hyx]
    exact h y u hy

/-- The types are alike in every mirror. -/
def AlwaysLike (B : String → Prop) (t t' : Ty) : Prop := ∀ w : Mirror B, w.Like t t'

/-- Checking an expression is followed. -/
def CheckFollows (B : String → Prop) (e : Expr) : Prop :=
  ∀ (w : Mirror B) (e' : Expr) (names names' : Names) (scope scope' : Scope) (t t' : Ty),
    e.Retyped (AlwaysLike B) e' → w.NamesLike names names' → w.Scopes scope scope' →
    w.Like t t' → w.Sim (check names scope e t) (check names' scope' e' t') fun _ _ _ => True

/-- Synthesizing a type is followed, by one that is alike. -/
def SynthFollows (B : String → Prop) (e : Expr) : Prop :=
  ∀ (w : Mirror B) (e' : Expr) (names names' : Names) (scope scope' : Scope),
    e.Retyped (AlwaysLike B) e' → w.NamesLike names names' → w.Scopes scope scope' →
    w.Sim (synth names scope e) (synth names' scope' e') fun w' t t' => w'.Like t t'

theorem checkArgs_follows {args args' : List Expr} {params params' : List Ty}
    (hargs : List.Forall₂ (Expr.Retyped (AlwaysLike B)) args args')
    (hcheck : ∀ a ∈ args, CheckFollows B a) (hnames : w.NamesLike names names')
    (hs : w.Scopes scope scope') (hparams : List.Forall₂ w.Like params params') :
    w.Sim (checkArgs names scope args params) (checkArgs names' scope' args' params')
      fun _ _ _ => True := by
  induction hargs generalizing params params' w with
  | nil => exact sim_pure trivial
  | cons ha hargs ih =>
    cases hparams with
    | nil => exact sim_pure trivial
    | cons hp hparams =>
      rw [List.forall_mem_cons] at hcheck
      rw [checkArgs_cons, checkArgs_cons]
      refine (hcheck.1 w _ names names' scope scope' _ _ ha hnames hs hp).bind fun w₁ _ _ he _ => ?_
      exact ih hcheck.2 (hnames.mono he) (hs.mono he) (hparams.imp fun _ _ h => h.mono he)

/-- The head of an application is synthesized and its parameters are taken. -/
theorem head_follows {α β : Type} {k : List Ty × Ty → Infer α} {k' : List Ty × Ty → Infer β}
    {Q : Mirror B → α → β → Prop} (hsynth : SynthFollows B e.head)
    (h : e.Retyped (AlwaysLike B) e') (hnames : w.NamesLike names names')
    (hs : w.Scopes scope scope')
    (hk : ∀ w' ps ps', w.Extends w' → List.Forall₂ w'.Like ps.1 ps'.1 → w'.Like ps.2 ps'.2 →
      w'.Sim (k ps) (k' ps') Q) :
    w.Sim
      (do
        let ft ← synth names scope e.head
        let ps ← solving e (Parameters.takeAll scope ft e.args)
        k ps)
      (do
        let ft ← synth names' scope' e'.head
        let ps ← solving e' (Parameters.takeAll scope' ft e'.args)
        k' ps) Q := by
  refine (hsynth w e'.head names names' scope scope' h.head hnames hs).bind
    fun w₁ ft ft' he₁ hft => ?_
  refine ((takeAll_follows h.args.length_eq (hs.mono he₁) hft).solving e e').bind
    fun w₂ ps ps' he₂ hps => ?_
  exact hk w₂ ps ps' (he₁.trans he₂) hps.1 hps.2

theorem synth_follows_step (e : Expr)
    (ih : ∀ e', e'.size < e.size → CheckFollows B e' ∧ SynthFollows B e') : SynthFollows B e := by
  intro w e' names names' scope scope' h hnames hs
  have hother : e.Unruled → w.Sim (synth names scope e) (synth names' scope' e')
      fun w' t t' => w'.Like t t' := by
    intro hu
    rw [synth_other names scope hu]
    exact sim_of_stops trivial
  cases h with
  | var x =>
    rw [synth_var, synth_var]
    refine (sim_log _ _).bind fun w₁ _ _ he _ => ?_
    cases hx : names.find? x with
    | error f => exact sim_of_stops trivial
    | ok found =>
      cases found with
      | none => exact sim_of_stops trivial
      | some t =>
        obtain ⟨t', hx', ht⟩ := hnames x t hx
        rw [hx']
        exact sim_pure (ht.mono he)
  | @fn x body body' hbody =>
    rw [synth_fn, synth_fn]
    refine (sim_log _ _).bind fun w₁ _ _ he₁ _ => ?_
    refine (sim_newMVar (hs.mono he₁)).bind fun w₂ p p' he₂ hp => ?_
    have hs₂ := (hs.mono he₁).mono he₂
    refine (sim_newMVar hs₂).bind fun w₃ q q' he₃ hq => ?_
    have hp₃ := hp.1.mono he₃
    have hnames₃ := ((hnames.mono he₁).mono he₂).mono he₃
    have hcheck := (ih body (by simp only [Expr.size]; omega)).1
    refine (hcheck w₃ body' _ _ scope scope' _ _ hbody (hnames₃.insert x hp₃) (hs₂.mono he₃)
      hq.1).bind fun w₄ _ _ he₄ _ => ?_
    exact (sim_newArrow (hp₃.mono he₄) (hq.1.mono he₄)).mono fun _ _ _ _ ht => ht.1
  | @app f f' a a' hf ha =>
    rw [synth_app, synth_app]
    refine (sim_log _ _).bind fun w₁ _ _ he₁ _ => ?_
    refine head_follows (ih _ (Expr.size_head_lt f a)).2 (.app hf ha) (hnames.mono he₁)
      (hs.mono he₁) fun w₂ ps ps' he₂ hps hrest => ?_
    have he := he₁.trans he₂
    refine (checkArgs_follows (Expr.Retyped.args (.app hf ha))
      (fun b hb => (ih b (Expr.size_lt_of_mem_args hb)).1) (hnames.mono he) (hs.mono he)
      hps).bind fun w₃ _ _ he₃ _ => ?_
    exact sim_pure (hrest.mono he₃)
  | @ann e₁ e₁' t t' he ht =>
    by_cases habsent : t = .absent
    · subst habsent
      exact hother (.inr (.inr ⟨e₁, rfl⟩))
    · have habsent' := mt (ht w).absent_iff.2 habsent
      rw [synth_ann names scope e₁ habsent, synth_ann names' scope' e₁' habsent']
      refine (sim_log _ _).bind fun w₁ _ _ he₁ _ => ?_
      have hcheck := (ih e₁ (by simp only [Expr.size]; omega)).1
      refine (hcheck w₁ e₁' names names' scope scope' t t' he (hnames.mono he₁) (hs.mono he₁)
        (ht w₁)).bind fun w₂ _ _ _ _ => ?_
      exact sim_pure (ht w₂)
  | unknown k => exact hother (.inr (.inl ⟨k, rfl⟩))
  | absent => exact hother (.inl rfl)

theorem check_follows_step (e : Expr) (hsynth : SynthFollows B e)
    (ih : ∀ e', e'.size < e.size → CheckFollows B e' ∧ SynthFollows B e') : CheckFollows B e := by
  intro w e' names names' scope scope' t t' h hnames hs ht
  rw [check_eq, check_eq]
  refine (skolemize_follows e e' hs ht).bind fun w₁ p p' he₁ hp => ?_
  obtain ⟨scope, t⟩ := p
  obtain ⟨scope', t'⟩ := p'
  obtain ⟨hs₁, ht₁⟩ := hp
  have hnames₁ := hnames.mono he₁
  have hsub : w₁.Sim
      (do
        let found ← synth names scope e
        solving e (subsume scope found t))
      (do
        let found ← synth names' scope' e'
        solving e' (subsume scope' found t')) fun _ _ _ => True := by
    refine (hsynth w₁ e' names names' scope scope' h hnames₁ hs₁).bind fun w₂ u u' he₂ hu => ?_
    exact (subsume_follows (hs₁.mono he₂) hu (ht₁.mono he₂)).solving e e'
  cases h with
  | @fn x body body' hbody =>
    cases t with
    | arrow k p q =>
      cases ht₁.alike with
      | arrow =>
        obtain ⟨hp, hq⟩ := Like.arrow.1 ht₁
        have hcheck := (ih body (by simp only [Expr.size]; omega)).1
        exact hcheck w₁ body' _ _ scope scope' _ _ hbody (hnames₁.insert x hp) hs₁ hq
    | _ =>
      cases ht₁.alike
      exact hsub
  | @app f f' a a' hf ha =>
    refine head_follows (ih _ (Expr.size_head_lt f a)).2 (.app hf ha) hnames₁ hs₁
      fun w₂ ps ps' he₂ hps hrest => ?_
    refine ((subsume_follows (hs₁.mono he₂) hrest (ht₁.mono he₂)).solving _ _).bind
      fun w₃ _ _ he₃ _ => ?_
    have he := he₂.trans he₃
    exact checkArgs_follows (Expr.Retyped.args (.app hf ha))
      (fun b hb => (ih b (Expr.size_lt_of_mem_args hb)).1) (hnames₁.mono he) (hs₁.mono he)
      (hps.imp fun _ _ h => h.mono he₃)
  | _ => exact hsub

/-- **Inference is followed in every mirror.** -/
theorem infer_follows (e : Expr) : CheckFollows B e ∧ SynthFollows B e :=
  infer_induction synth_follows_step check_follows_step e

end Mirror

end RankN
