import RankN.Proofs.Inference

/-!
# No skolem constant escapes

A type is *in scope* when its expansion mentions only skolem constants of the scope and metavariables
whose own scopes are included in it (`Ty.InScope`). Solving metavariables later cannot break this:
the solution of a metavariable fits its scope.

**The invariant.** In every call of `check` and `synth`, the types of all names, the annotations, and
the expected type are in scope (`Scoped`). Opening a quantifier of an expected type enters the new
constant into the scope of all calls below, and of these only.

Main result: `infer_no_escape`. What an inference returns mentions no skolem constant, and whenever
`synth` succeeds on the way, what it returns is in scope.
-/

namespace RankN

open RankN.Action Relation

variable {P : Ty → Prop} {r r' : Run} {s : Scope}

/-! ## Types in scope -/

/-- The expansion of the type mentions only constants of the scope, and metavariables whose scopes
are included in it. -/
def Ty.InScope (r : Run) (s : Scope) (t : Ty) : Prop :=
  (r.table.expand t).Leaves (fun m => ∀ id ∈ m.scope, id ∈ s) (· ∈ s)

section

variable {t u : Ty} {m : MVar}

theorem Ty.InScope.mono (h : t.InScope r s) {s' : Scope} (hs : ∀ id ∈ s, id ∈ s') :
    t.InScope r s' :=
  Leaves.mono h (fun _ hm id hid => hs id (hm id hid)) hs

theorem Ty.InScope.agrees (h : t.InScope r s) (ha : r.Agrees r') : t.InScope r' s := by
  unfold Ty.InScope
  rwa [ha.table]

/-- **Solving keeps types in scope.** -/
theorem Ty.InScope.extend (h : t.InScope r s) (hr : r.Valid P) (hr' : r'.Valid P)
    (he : r.Extends r') : t.InScope r' s := by
  unfold Ty.InScope
  rw [← hr.acyclic.expand_expand_of_le hr'.acyclic he.solution, Table.leaves_expand]
  refine Leaves.mono h (fun m hm => ?_) fun _ hid => hid
  cases hs : r'.table.solution? m with
  | none =>
    rw [Table.expand_unsolved hs]
    simpa using hm
  | some u =>
    rw [hr'.acyclic.expand_solved hs]
    exact (hr'.fits m u hs).mono (fun k hk id hid => hm id (hk ▸ hid)) hm

theorem Ty.inScope_arrow {n : Nat} {p q : Ty} :
    (Ty.arrow n p q).InScope r s ↔ p.InScope r s ∧ q.InScope r s := Ty.leaves_arrow

theorem Ty.inScope_solved (hr : r.Valid P) (hm : r.table.solution? m = some u) :
    (Ty.mvar m).InScope r s ↔ u.InScope r s := by
  unfold Ty.InScope
  rw [hr.acyclic.expand_solved hm]

theorem Ty.inScope_unsolved (hm : r.table.solution? m = none) :
    (Ty.mvar m).InScope r s ↔ ∀ id ∈ m.scope, id ∈ s := by
  unfold Ty.InScope
  rw [Table.expand_unsolved hm, Ty.leaves_mvar]

/-- A quantified type in scope is in scope once opened. -/
theorem Ty.InScope.opened {n : Nat} {x : String} {body new : Ty}
    (h : (Ty.all n x body).InScope r s)
    (hnew : new.Leaves (fun m => ∀ id ∈ m.scope, id ∈ s) (· ∈ s))
    (ht : r'.table.expand t = (r.table.expand body).replace x new) : t.InScope r' s := by
  unfold Ty.InScope
  rw [ht]
  exact Ty.leaves_replace h hnew

theorem Ty.Ground.inScope (h : t.Ground) (r : Run) (s : Scope) : t.InScope r s := by
  unfold Ty.InScope
  rw [Table.expand_of_unsolved fun m hm => (h.1 m hm).elim, Ty.leaves_plain]
  exact h.mono (fun _ => False.elim) fun _ => False.elim

end

/-! ## Parameters -/

/-- The parameter and the rest of a type in scope are in scope. -/
theorem exposeWithin_inScope (hP : Ty.Stable P) (n : Nat) {args : List Expr} {t : Ty}
    (hr : r.Valid P) (hs : s.Over r) (ht : t.Of P r) (hin : t.InScope r s) :
    (exposeWithin s args n t).Keeps P r fun ex r' =>
      ex.param.InScope r' s ∧ ex.rest.InScope r' s := by
  induction n generalizing t r with
  | zero =>
    rw [exposeWithin]
    exact keeps_throw hr
  | succ n ih =>
    refine ensures_exposeWithin ?_ ?_ ?_ ?_ fun _ _ _ => hr.prune t
    · rintro k x body rfl
      refine (keeps_newMVar hr hs).bind fun m r₁ hr₁ he₁ hm => ?_
      refine (keeps_openAll_mvar hP hr₁ (ht.mono hP hr hr₁ he₁) hm.owned hm.unsolved).bind
        fun t' r₂ hr₂ he₂ ht' => ?_
      refine ih hr₂ ((hs.mono he₁).mono he₂) ht'.1 ?_
      refine (hin.extend hr hr₁ he₁).opened ?_ ht'.2.2
      simp [hm.scope]
    · rintro k p q rfl
      exact ⟨hr, .refl r, Ty.inScope_arrow.1 hin⟩
    · rintro m u rfl hu
      exact ih hr hs (hr.solutions m u hu) ((Ty.inScope_solved hr hu).1 hin)
    · rintro m rfl hm
      refine (exposeMVar_keeps hP hr ht.owns hm).mono fun ex r' hr' he h => ?_
      obtain ⟨k, hsol⟩ := h
      exact Ty.inScope_arrow.1 ((Ty.inScope_solved hr' hsol).1 (hin.extend hr hr' he))

theorem takeAll_inScope (hP : Ty.Stable P) (args : List Expr) {t : Ty} (hr : r.Valid P)
    (hs : s.Over r) (ht : t.Of P r) (hin : t.InScope r s) :
    (Parameters.takeAll s t args).Keeps P r fun ps r' =>
      (∀ p ∈ ps.1, p.InScope r' s) ∧ ps.2.InScope r' s := by
  induction args generalizing t r with
  | nil =>
    rw [Parameters.takeAll_nil]
    exact keeps_pure hr ⟨by simp, hin⟩
  | cons arg args ih =>
    rw [Parameters.takeAll_cons]
    have hexpose : (expose s (arg :: args) t).Keeps P r fun ex r' =>
        (ex.param.Of P r' ∧ ex.rest.Of P r') ∧ ex.param.InScope r' s ∧ ex.rest.InScope r' s :=
      keeps_get_bind ((exposeWithin_keeps hP _ hr hs ht).and (exposeWithin_inScope hP _ hr hs ht hin))
    refine hexpose.bind fun ex r₁ hr₁ he₁ hex => ?_
    refine (ih hr₁ (hs.mono he₁) hex.1.2 hex.2.2).bind fun ps r₂ hr₂ he₂ hps => ?_
    refine keeps_pure hr₂ ⟨fun p hp => ?_, hps.2⟩
    rcases List.mem_cons.1 hp with rfl | hp
    · exact hex.2.1.extend hr₁ hr₂ he₂
    · exact hps.1 p hp

/-! ## Expected types -/

/-- Expecting a type in scope leaves a type in a scope that has only grown. -/
theorem skolemizeWithin_inScope (hP : Ty.Stable P) (n : Nat) {e : Expr} {t : Ty} (hr : r.Valid P)
    (hs : s.Over r) (ht : t.Of P r) (hin : t.InScope r s) :
    (skolemizeWithin e n s t).Keeps P r fun p r' =>
      (∀ id ∈ s, id ∈ p.1) ∧ p.2.InScope r' p.1 := by
  induction n generalizing s t r with
  | zero =>
    rw [skolemizeWithin_zero]
    exact keeps_throw hr
  | succ n ih =>
    have hlog := r.agrees_log (.check e t)
    have hr₁ := hlog.valid hr
    have ht₁ := hlog.of ht
    have hs₁ := hs.mono hlog.extends_
    have hin₁ := hin.agrees hlog
    refine ensures_skolemizeWithin ?_ ?_ fun _ _ => ⟨hr₁, hlog.extends_, fun _ h => h, hin₁⟩
    · rintro m u rfl hu
      refine (ih hr₁ hs₁ (hlog.of (hr.solutions m u hu)) ?_).after hlog.extends_
      exact ((Ty.inScope_solved hr hu).1 hin).agrees hlog
    · rintro k x body rfl
      refine Keeps.after hlog.extends_ ?_
      refine (keeps_newSkolem hr₁).bind fun c r₂ hr₂ he₂ hc => ?_
      refine (keeps_openAll_skolem hP hr₂ (ht₁.mono hP hr₁ hr₂ he₂) hc.2.1).bind
        fun t' r₃ hr₃ he₃ ht' => ?_
      have hgrow : ∀ id ∈ s, id ∈ s.insert c := fun id hid => Scope.mem_insert.2 (.inr hid)
      have hin₃ : t'.InScope r₃ (s.insert c) :=
        ((hin₁.extend hr₁ hr₂ he₂).mono hgrow).opened (by simp) ht'.2.2
      exact (ih hr₃ (((hs₁.mono he₂).insert hc.2.1).mono he₃) ht'.1 hin₃).mono
        fun p r' _ _ h => ⟨fun id hid => h.1 id (hgrow id hid), h.2⟩

/-! ## Calls in scope -/

/-- What a call of `check` or `synth` is given is in scope. -/
structure Scoped (P : Ty → Prop) (r : Run) (names : Names) (s : Scope) (e : Expr) : Prop where
  given : Given P r names s e
  names : names.Every (·.InScope r s)
  expr : e.Every (·.InScope r s)

section

variable {names : Names} {e : Expr}

theorem Scoped.extend (hP : Ty.Stable P) (h : Scoped P r names s e) (hr : r.Valid P)
    (hr' : r'.Valid P) (he : r.Extends r') : Scoped P r' names s e :=
  ⟨h.given.mono hP hr hr' he, h.names.mono fun _ ht => ht.extend hr hr' he,
    h.expr.mono fun _ ht => ht.extend hr hr' he⟩

theorem Scoped.agrees (h : Scoped P r names s e) (ha : r.Agrees r') : Scoped P r' names s e :=
  ⟨h.given.agrees ha, h.names.mono fun _ ht => ht.agrees ha, h.expr.mono fun _ ht => ht.agrees ha⟩

/-- What is in scope stays in scope when the scope grows. -/
theorem Scoped.grow (h : Scoped P r names s e) {s' : Scope} (hs : ∀ id ∈ s, id ∈ s')
    (ho : s'.Over r) : Scoped P r names s' e :=
  ⟨{ h.given with scope := ho }, h.names.mono fun _ ht => ht.mono hs,
    h.expr.mono fun _ ht => ht.mono hs⟩

theorem Scoped.head (h : Scoped P r names s e) : Scoped P r names s e.head :=
  ⟨h.given.head, h.names, h.expr.head⟩

theorem Scoped.arg (h : Scoped P r names s e) {a : Expr} (ha : a ∈ e.args) :
    Scoped P r names s a := ⟨h.given.arg ha, h.names, h.expr.arg ha⟩

theorem Scoped.body {x : String} (h : Scoped P r names s (.fn x e)) {t : Ty} (ht : t.Of P r)
    (hin : t.InScope r s) : Scoped P r (names.insert x t) s e :=
  ⟨h.given.body ht, h.names.insert x hin, h.expr⟩

theorem Scoped.ann {t : Ty} (h : Scoped P r names s (.ann e t)) :
    Scoped P r names s e ∧ t.InScope r s :=
  ⟨⟨h.given.ann.1, h.names, fun u hu => h.expr u (List.mem_cons_of_mem _ hu)⟩,
    h.expr t List.mem_cons_self⟩

/-- **What `synth` returns is in scope.** -/
theorem synth_inScope (hP : Ty.Stable P) (hr : r.Valid P) (hsc : Scoped P r names s e) :
    (synth names s e).Keeps P r fun t r' => t.InScope r' s := by
  -- Of the calls below, only the one for the head of an application matters.
  induction hn : e.size using Nat.strong_induction_on generalizing r e with
  | _ n ih =>
    have hother : (e = .absent ∨ (∃ k, e = .unknown k) ∨ ∃ e', e = .ann e' .absent) →
        (synth names s e).Keeps P r fun t r' => t.InScope r' s := by
      intro h
      rw [synth_other names s h]
      exact (keeps_log hr _).bind fun _ r₁ hr₁ _ _ => keeps_throw hr₁
    cases e with
    | var x =>
      rw [synth_var]
      refine (keeps_log hr _).bind fun _ r₁ hr₁ _ hlog => ?_
      split
      · rename_i t hx
        exact keeps_pure hr₁ ((hsc.agrees hlog).names.find hx)
      · exact keeps_throw hr₁
      · exact keeps_throw hr₁
    | fn x body =>
      rw [synth_fn]
      refine (keeps_log hr _).bind fun _ r₁ hr₁ _ hlog => ?_
      have hg₁ := hsc.given.agrees hlog
      refine (keeps_newMVar hr₁ hg₁.scope).bind fun p r₂ hr₂ he₂ hp => ?_
      have hg₂ := hg₁.mono hP hr₁ hr₂ he₂
      have hp₂ : (Ty.mvar p).InScope r₂ s := by simp [Ty.inScope_unsolved hp.unsolved, hp.scope]
      refine (keeps_newMVar hr₂ hg₂.scope).bind fun q r₃ hr₃ he₃ hq => ?_
      have hp₃ : (Ty.mvar p).Of P r₃ := Ty.of_mvar hP hr₃ (he₃.owns p hp.owned)
      have hq₃ : (Ty.mvar q).InScope r₃ s := by simp [Ty.inScope_unsolved hq.unsolved, hq.scope]
      have hg₃ : Given P r₃ (names.insert x (.mvar p)) s body := (hg₂.mono hP hr₂ hr₃ he₃).body hp₃
      refine (check_keeps hP hr₃ hg₃ (Ty.of_mvar hP hr₃ hq.owned)).bind fun _ r₄ hr₄ he₄ _ => ?_
      refine (keeps_newArrow hr₄ _ _).mono fun t r₅ _ _ ht => ?_
      obtain ⟨⟨n, rfl⟩, hag⟩ := ht
      exact Ty.inScope_arrow.2 ⟨((hp₂.extend hr₂ hr₃ he₃).extend hr₃ hr₄ he₄).agrees hag,
        (hq₃.extend hr₃ hr₄ he₄).agrees hag⟩
    | app f a =>
      rw [synth_app]
      refine (keeps_log hr _).bind fun _ r₁ hr₁ _ hlog => ?_
      have hsc₁ := hsc.agrees hlog
      have hhead := ih _ (hn ▸ Expr.size_head_lt f a) hr₁ hsc₁.head rfl
      refine ((synth_keeps hP hr₁ hsc₁.given.head).and hhead).bind fun ft r₂ hr₂ he₂ hft => ?_
      have hg₂ := hsc₁.given.mono hP hr₁ hr₂ he₂
      have htake := (takeAll_keeps hP (Expr.app f a).args hr₂ hg₂.scope hft.1).and
        (takeAll_inScope hP _ hr₂ hg₂.scope hft.1 hft.2)
      refine (keeps_solving htake _).bind fun ps r₃ hr₃ he₃ hps => ?_
      have hg₃ := hg₂.mono hP hr₂ hr₃ he₃
      refine (checkArgs_keeps hP (fun b _ => (infer_keeps hP b).1) hr₃ (fun b hb => hg₃.arg hb)
        hps.1.1).bind fun _ r₄ hr₄ he₄ _ => ?_
      exact keeps_pure hr₄ (hps.2.2.extend hr₃ hr₄ he₄)
    | ann e' t =>
      by_cases ht : t = .absent
      · subst ht
        exact hother (.inr (.inr ⟨e', rfl⟩))
      · rw [synth_ann names s e' ht]
        refine (keeps_log hr _).bind fun _ r₁ hr₁ _ hlog => ?_
        have hsc₁ := hsc.agrees hlog
        obtain ⟨hg₁, ht₁⟩ := hsc₁.given.ann
        refine (check_keeps hP hr₁ hg₁ ht₁).bind fun _ r₂ hr₂ he₂ _ => ?_
        exact keeps_pure hr₂ (hsc₁.ann.2.extend hr₁ hr₂ he₂)
    | unknown k => exact hother (.inr (.inl ⟨k, rfl⟩))
    | absent => exact hother (.inl rfl)

end

/-! ## The calls of an inference -/

/-- A call of `check` or `synth`. -/
inductive Call where
  | check (names : Names) (scope : Scope) (e : Expr) (t : Ty)
  | synth (names : Names) (scope : Scope) (e : Expr)

/-- While arguments are checked from the run `r` on, in order, `a` is checked against `p` in the run
`r'`. -/
inductive ChecksArg (names : Names) (scope : Scope) :
    List Expr → List Ty → Run → Expr → Ty → Run → Prop
  | here {args params r a p} : ChecksArg names scope (a :: args) (p :: params) r a p r
  | later {args params r r₁ r' a p b q} : RankN.check names scope a p r = .ok () r₁ →
      ChecksArg names scope args params r₁ b q r' →
      ChecksArg names scope (a :: args) (p :: params) r b q r'

/-- A call in the run `r` makes another one, in the run `r'`, on its way. -/
inductive Makes : Call → Run → Call → Run → Prop
  /-- A function is checked against a function type in its body. -/
  | body {names scope x body t r scope' k p q r'} :
      skolemize (.fn x body) scope t r = .ok (scope', .arrow k p q) r' →
      Makes (.check names scope (.fn x body) t) r (.check (names.insert x p) scope' body q) r'
  /-- An application is checked by synthesizing its head ... -/
  | head {names scope f a t r scope' t' r'} :
      skolemize (.app f a) scope t r = .ok (scope', t') r' →
      Makes (.check names scope (.app f a) t) r (.synth names scope' (Expr.app f a).head) r'
  /-- ... and by checking its arguments, after the result has been compared. -/
  | arg {names scope f a t r scope' t' r₁ ft r₂ ps r₃ r₄ b q r'} :
      skolemize (.app f a) scope t r = .ok (scope', t') r₁ →
      RankN.synth names scope' (Expr.app f a).head r₁ = .ok ft r₂ →
      Parameters.takeAll scope' ft (Expr.app f a).args r₂ = .ok ps r₃ →
      subsume scope' ps.2 t' r₃ = .ok () r₄ →
      ChecksArg names scope' (Expr.app f a).args ps.1 r₄ b q r' →
      Makes (.check names scope (.app f a) t) r (.check names scope' b q) r'
  /-- Everything else is checked by synthesizing it. -/
  | synth {names scope e t r scope' t' r'} : skolemize e scope t r = .ok (scope', t') r' →
      (∀ f a, e ≠ .app f a) → (∀ x body k p q, e = .fn x body → t' ≠ .arrow k p q) →
      Makes (.check names scope e t) r (.synth names scope' e) r'
  /-- A type is synthesized for an annotated expression by checking it ... -/
  | ann {names scope e t r} : t ≠ .absent →
      Makes (.synth names scope (.ann e t)) r (.check names scope e t)
        (Run.log (.synth (.ann e t)) r).2
  /-- ... for a function by checking its body ... -/
  | fn {names scope x body r p r₁ q r₂} :
      Run.newMVar scope (Run.log (.synth (.fn x body)) r).2 = (p, r₁) →
      Run.newMVar scope r₁ = (q, r₂) →
      Makes (.synth names scope (.fn x body)) r
        (.check (names.insert x (.mvar p)) scope body (.mvar q)) r₂
  /-- ... and for an application from that of its head, by checking its arguments. -/
  | fnHead {names scope f a r} :
      Makes (.synth names scope (.app f a)) r (.synth names scope (Expr.app f a).head)
        (Run.log (.synth (.app f a)) r).2
  | fnArg {names scope f a r ft r₂ ps r₃ b q r'} :
      RankN.synth names scope (Expr.app f a).head (Run.log (.synth (.app f a)) r).2 = .ok ft r₂ →
      Parameters.takeAll scope ft (Expr.app f a).args r₂ = .ok ps r₃ →
      ChecksArg names scope (Expr.app f a).args ps.1 r₃ b q r' →
      Makes (.synth names scope (.app f a)) r (.check names scope b q) r'

/-- What the call is given is in scope. -/
def Call.InScope (P : Ty → Prop) (r : Run) : Call → Prop
  | .check names scope e t => Scoped P r names scope e ∧ t.Of P r ∧ t.InScope r scope
  | .synth names scope e => Scoped P r names scope e

theorem ChecksArg.inScope (hP : Ty.Stable P) {names : Names} {args : List Expr}
    {params : List Ty} {a : Expr} {p : Ty} (h : ChecksArg names s args params r a p r')
    (hr : r.Valid P) (hargs : ∀ a ∈ args, Scoped P r names s a)
    (hparams : ∀ p ∈ params, p.Of P r ∧ p.InScope r s) :
    r'.Valid P ∧ (Call.check names s a p).InScope P r' := by
  induction h with
  | here =>
    exact ⟨hr, hargs _ List.mem_cons_self, hparams _ List.mem_cons_self⟩
  | later hcheck _ ih =>
    simp only [List.forall_mem_cons] at hargs hparams
    obtain ⟨hr₁, he₁, -⟩ := (check_keeps hP hr hargs.1.given hparams.1.1).of_ok hcheck
    exact ih hr₁ (fun b hb => (hargs.2 b hb).extend hP hr hr₁ he₁)
      fun q hq => ⟨(hparams.2 q hq).1.mono hP hr hr₁ he₁, (hparams.2 q hq).2.extend hr hr₁ he₁⟩

/-- Expecting a type in scope: what is left of it, and the call, are in scope. -/
theorem Call.InScope.skolemize (hP : Ty.Stable P) {names : Names} {e : Expr} {t t' : Ty}
    {s' : Scope} (hr : r.Valid P) (h : (Call.check names s e t).InScope P r)
    (hsk : skolemize e s t r = .ok (s', t') r') :
    r'.Valid P ∧ (Call.check names s' e t').InScope P r' := by
  obtain ⟨hsc, ht, hin⟩ := h
  have hkeeps : (RankN.skolemize e s t).Keeps P r fun p r' =>
      (p.1.Over r' ∧ p.2.Of P r') ∧ (∀ id ∈ s, id ∈ p.1) ∧ p.2.InScope r' p.1 :=
    keeps_get_bind ((skolemizeWithin_keeps hP _ hr hsc.given.scope ht).and
      (skolemizeWithin_inScope hP _ hr hsc.given.scope ht hin))
  obtain ⟨hr', he, ⟨hover, ht'⟩, hgrow, hin'⟩ := hkeeps.of_ok hsk
  exact ⟨hr', (hsc.extend hP hr hr' he).grow hgrow hover, ht', hin'⟩

/-- The parameters and the result that are taken for the arguments of an application are in scope. -/
theorem Scoped.takeAll (hP : Ty.Stable P) {names : Names} {e : Expr} {ft : Ty} {r₁ r₂ : Run}
    {ps : List Ty × Ty} (hr : r.Valid P) (h : Scoped P r names s e)
    (hsynth : synth names s e.head r = .ok ft r₁)
    (htake : Parameters.takeAll s ft e.args r₁ = .ok ps r₂) :
    r₂.Valid P ∧ r.Extends r₂ ∧ (∀ p ∈ ps.1, p.Of P r₂ ∧ p.InScope r₂ s) ∧ ps.2.Of P r₂ := by
  obtain ⟨hr₁, he₁, hft, hin⟩ :=
    ((synth_keeps hP hr h.given.head).and (synth_inScope hP hr h.head)).of_ok hsynth
  have hs₁ := h.given.scope.mono he₁
  obtain ⟨hr₂, he₂, hps, hpsin⟩ :=
    ((takeAll_keeps hP _ hr₁ hs₁ hft).and (takeAll_inScope hP _ hr₁ hs₁ hft hin)).of_ok htake
  exact ⟨hr₂, he₁.trans he₂, fun p hp => ⟨hps.1 p hp, hpsin.1 p hp⟩, hps.2⟩

/-- A function without an expected type gets two metavariables in scope. -/
theorem Scoped.newMVars (hP : Ty.Stable P) {names : Names} {x : String} {e : Expr} {p q : MVar}
    {r₁ r₂ : Run} (hr : r.Valid P) (h : Scoped P r names s (.fn x e))
    (hp : Run.newMVar s r = (p, r₁)) (hq : Run.newMVar s r₁ = (q, r₂)) :
    r₂.Valid P ∧ Scoped P r₂ (names.insert x (.mvar p)) s e ∧ (Ty.mvar p).InScope r₂ s ∧
      (Ty.mvar q).Of P r₂ ∧ (Ty.mvar q).InScope r₂ s := by
  have hr₁ := hr.newMVar h.given.scope
  have he₁ := r.extends_newMVar s
  have hadd₁ := hr.adds_newMVar s
  simp only [hp] at hr₁ he₁ hadd₁
  have hr₂ := hr₁.newMVar (h.given.scope.mono he₁)
  have he₂ := r₁.extends_newMVar s
  have hadd₂ := hr₁.adds_newMVar s
  simp only [hq] at hr₂ he₂ hadd₂
  have hpin : (Ty.mvar p).InScope r₂ s :=
    ((Ty.inScope_unsolved hadd₁.unsolved).2 (by simp [hadd₁.scope])).extend hr₁ hr₂ he₂
  have hqin : (Ty.mvar q).InScope r₂ s :=
    (Ty.inScope_unsolved hadd₂.unsolved).2 (by simp [hadd₂.scope])
  have hsc := (h.extend hP hr hr₁ he₁).extend hP hr₁ hr₂ he₂
  exact ⟨hr₂, hsc.body (Ty.of_mvar hP hr₂ (he₂.owns p hadd₁.owned)) hpin, hpin,
    Ty.of_mvar hP hr₂ hadd₂.owned, hqin⟩

/-- **A call in scope makes calls in scope.** -/
theorem Makes.inScope (hP : Ty.Stable P) {c c' : Call} (h : Makes c r c' r') (hr : r.Valid P)
    (hc : c.InScope P r) : r'.Valid P ∧ c'.InScope P r' := by
  cases h with
  | body hsk =>
    obtain ⟨hr', hsc, ht, hin⟩ := hc.skolemize hP hr hsk
    obtain ⟨hp, hq⟩ := (Ty.of_arrow hP).1 ht
    obtain ⟨hpin, hqin⟩ := Ty.inScope_arrow.1 hin
    exact ⟨hr', hsc.body hp hpin, hq, hqin⟩
  | head hsk =>
    obtain ⟨hr', hsc, -⟩ := hc.skolemize hP hr hsk
    exact ⟨hr', hsc.head⟩
  | arg hsk hsynth htake hsub hargs =>
    obtain ⟨hr₁, hsc, ht, -⟩ := hc.skolemize hP hr hsk
    obtain ⟨hr₃, he₃, hps, hres⟩ := hsc.takeAll hP hr₁ hsynth htake
    have ht₃ := ht.mono hP hr₁ hr₃ he₃
    have hsc₃ := hsc.extend hP hr₁ hr₃ he₃
    obtain ⟨hr₄, he₄, -⟩ := (subsume_keeps hP hr₃ hsc₃.given.scope hres ht₃).of_ok hsub
    exact hargs.inScope hP hr₄ (fun b hb => (hsc₃.extend hP hr₃ hr₄ he₄).arg hb)
      fun p hp => ⟨(hps p hp).1.mono hP hr₃ hr₄ he₄, (hps p hp).2.extend hr₃ hr₄ he₄⟩
  | synth hsk =>
    obtain ⟨hr', hsc, -⟩ := hc.skolemize hP hr hsk
    exact ⟨hr', hsc⟩
  | @ann names scope e t _ _ =>
    have hlog := r.agrees_log (.synth (.ann e t))
    have hsc := Scoped.agrees hc hlog
    exact ⟨hlog.valid hr, hsc.ann.1, hsc.given.ann.2, hsc.ann.2⟩
  | @fn names scope x body _ p r₁ q _ hp hq =>
    have hlog := r.agrees_log (.synth (.fn x body))
    obtain ⟨hr', hsc, -, hq', hqin⟩ := (Scoped.agrees hc hlog).newMVars hP (hlog.valid hr) hp hq
    exact ⟨hr', hsc, hq', hqin⟩
  | @fnHead names scope f a _ =>
    have hlog := r.agrees_log (.synth (.app f a))
    exact ⟨hlog.valid hr, (Scoped.agrees hc hlog).head⟩
  | @fnArg names scope f a _ _ _ _ _ _ _ _ hsynth htake hargs =>
    have hlog := r.agrees_log (.synth (.app f a))
    have hsc := Scoped.agrees hc hlog
    obtain ⟨hr₃, he₃, hps, -⟩ := hsc.takeAll hP (hlog.valid hr) hsynth htake
    exact hargs.inScope hP hr₃ (fun b hb => (hsc.extend hP (hlog.valid hr) hr₃ he₃).arg hb) hps

/-- The call `y.1`, in the run `y.2`, is made on the way of the call `x.1` in the run `x.2`. -/
def Leads : Call × Run → Call × Run → Prop := ReflTransGen fun x y => Makes x.1 x.2 y.1 y.2

theorem Leads.makes {x : Call × Run} {c c' : Call} {r r' : Run} (h : Leads x (c, r))
    (hmakes : Makes c r c' r') : Leads x (c', r') := ReflTransGen.tail h hmakes

theorem Leads.inScope (hP : Ty.Stable P) {x y : Call × Run} (h : Leads x y) (hr : x.2.Valid P)
    (hx : x.1.InScope P x.2) : y.2.Valid P ∧ y.1.InScope P y.2 := by
  induction h with
  | refl => exact ⟨hr, hx⟩
  | tail _ hmakes ih => exact hmakes.inScope hP ih.1 ih.2

/-! ## Whole inferences -/

/-- What pruning a type in scope returns. -/
theorem Ty.InScope.prune (hr : r.Valid P) {t : Ty} (ht : t.Of P r) (h : t.InScope r s) :
    (∀ id ∈ (prune t r).1.skolems, id ∈ s) ∧
    ∀ m ∈ (prune t r).1.mvars, r.table.owns m ∧ r.table.solution? m = none ∧
      ∀ id ∈ m.scope, id ∈ s := by
  have hin := (leaves_prune hr.acyclic).2 h
  have hover := ht.isOver.prune hr
  exact ⟨hin.2, fun m hm => ⟨hover.1 m hm, unsolved_of_mem_prune hr.acyclic hm, hin.1 m hm⟩⟩

/-- **No skolem constant escapes an inference.** The answer mentions no constant and no solved
metavariable, and all its metavariables are of this run and have the empty scope. Whenever `synth`
succeeds on the way, the pruned result mentions only constants of the scope it was called with, and
unsolved metavariables whose scopes are included in it. -/
theorem infer_no_escape (c : Context) (hc : c.Ready) (e : Expr) (env : Env)
    (henv : env.Every Ty.Ground) (he : e.Every Ty.Ground) :
    (∀ T c', c.infer e env = (.ok T, c') →
      T.skolems = [] ∧ ∀ m ∈ T.mvars,
        c'.run.table.owns m ∧ c'.run.table.solution? m = none ∧ m.scope = .empty) ∧
    ∀ names scope e' r t r',
      Leads (.synth { env } .empty e, c.start e env) (.synth names scope e', r) →
      synth names scope e' r = .ok t r' →
      (∀ id ∈ (prune t r').1.skolems, id ∈ scope) ∧
      ∀ m ∈ (prune t r').1.mvars, r'.table.solution? m = none ∧ ∀ id ∈ m.scope, id ∈ scope := by
  have hstart : (c.start e env).Valid Ty.Any := (hc.empty_start e env).valid
  have hscoped : (Call.synth { env } .empty e).InScope Ty.Any (c.start e env) := by
    refine ⟨given_of_ground (fun x t h => ⟨henv x t h, trivial⟩) (fun t h => ⟨he t h, trivial⟩) _,
      ⟨fun x t h => by simp [Layer.find?] at h, fun x t h => (henv x t h).inScope _ _⟩, ?_⟩
    exact fun t h => (he t h).inScope _ _
  have hsynth : ∀ names scope e' r t r',
      Leads (.synth { env } .empty e, c.start e env) (.synth names scope e', r) →
      synth names scope e' r = .ok t r' →
      r'.Valid Ty.Any ∧ t.Of Ty.Any r' ∧ t.InScope r' scope := by
    intro names scope e' r t r' hleads hok
    obtain ⟨hr, hsc⟩ := hleads.inScope Ty.stable_any hstart hscoped
    obtain ⟨hr', -, ht, hin⟩ := ((synth_keeps Ty.stable_any hr hsc.given).and
      (synth_inScope Ty.stable_any hr hsc)).of_ok hok
    exact ⟨hr', ht, hin⟩
  refine ⟨fun T c' hinfer => ?_, fun names scope e' r t r' hleads hok => ?_⟩
  · obtain ⟨t, r, hok, rfl, hrun⟩ := Context.infer_eq_ok hinfer
    obtain ⟨hr, ht, hin⟩ := hsynth _ _ _ _ t r .refl hok
    obtain ⟨hsk, hmv⟩ := hin.prune hr ht
    have hshort := (prune_spec hr.acyclic t).shortens
    refine ⟨List.eq_nil_iff_forall_not_mem.2 fun id hid => Scope.not_mem_empty (hsk id hid),
      fun m hm => ?_⟩
    obtain ⟨ho, hu, hscope⟩ := hmv m hm
    rw [← hrun]
    refine ⟨(hshort.owns m).2 ho, (hshort.unsolved m).2 hu, Scope.ext_mem fun id => ?_⟩
    exact ⟨fun hid => hscope id hid, fun hid => absurd hid Scope.not_mem_empty⟩
  · obtain ⟨hr', ht, hin⟩ := hsynth _ _ _ _ t r' hleads hok
    obtain ⟨hsk, hmv⟩ := hin.prune hr' ht
    exact ⟨hsk, fun m hm => (hmv m hm).2⟩

/-- With `f : (forall t. t -> t) -> int`, the function `x -> f (y -> y)` gets the type `?0 -> int`. The
constant at which `y -> y` is checked is gone, and `?0` has the empty scope. On the way the type `#0`
is synthesized for `y`, where `#0` is in scope. -/
theorem infer_no_escape_of_polymorphic_argument :
    let env : Env := [[("f", .arrow 5 Ty.identity (.var "int"))]]
    let arg : Expr := .fn "y" (.var "y")
    let e : Expr := .fn "x" (.app (.var "f") arg)
    let m : MVar := ⟨6, 0, .empty⟩
    let k : MVar := ⟨7, 1, .empty⟩
    let names : Names := Names.insert { env } "x" (.mvar m)
    let names' : Names := names.insert "y" (.skolem 0)
    let scope : Scope := .ofList [0]
    let tb : Table := (({} : Table).push m).push k
    let r : Run := { table := tb.write k (.var "int"), mvars := 2, skolems := 1, stamps := 9 }
    (∃ T c', ({} : Context).infer e env = (.ok T, c') ∧
      T.plain = .arrow 0 (.mvar m) (.var "int") ∧ c'.run.skolems = 1 ∧
      T.skolems = [] ∧ ∀ m ∈ T.mvars,
        c'.run.table.owns m ∧ c'.run.table.solution? m = none ∧ m.scope = .empty) ∧
    Leads (.synth { env } .empty e, ({} : Context).start e env)
      (.synth names' scope (.var "y"), r) ∧
    synth names' scope (.var "y") r = .ok (.skolem 0) r ∧
    (prune (.skolem 0) r).1.skolems = [0] ∧
    (∀ id ∈ (prune (.skolem 0) r).1.skolems, id ∈ scope) ∧
    ∀ m ∈ (prune (.skolem 0) r).1.mvars, r.table.solution? m = none ∧ ∀ id ∈ m.scope, id ∈ scope := by
  intro env arg e m k names names' scope tb r
  have henv : env.Every Ty.Ground := Env.every_of_declared (by decide)
  have he : e.Every Ty.Ground := by simp [Expr.Every, Expr.annotations, e, arg]
  obtain ⟨hno, hcalls⟩ := infer_no_escape {} (.inr ⟨rfl, rfl, rfl⟩) e env henv he
  have hleads : Leads (.synth { env } .empty e, ({} : Context).start e env)
      (.synth names' scope (.var "y"), r) := by
    -- The runs before and after the result `int` of `f` is compared with `?1`.
    let r₁ : Run := { table := tb, mvars := 2, stamps := 8 }
    let r₂ : Run := { table := tb.write k (.var "int"), mvars := 2, stamps := 8 }
    have hfn : Makes (.synth { env } .empty e) (({} : Context).start e env)
        (.check names .empty (.app (.var "f") arg) (.mvar k)) r₁ := .fn rfl rfl
    have hskolemize : skolemize (.app (.var "f") arg) .empty (.mvar k) r₁ =
        .ok (.empty, .mvar k) r₁ := rfl
    have hhead : synth names .empty (.var "f") r₁ = .ok (.arrow 5 Ty.identity (.var "int")) r₁ := by
      rw [synth_var]
      rfl
    have htake : Parameters.takeAll .empty (.arrow 5 Ty.identity (.var "int")) [arg] r₁ =
        .ok ([Ty.identity], .var "int") r₁ := rfl
    have hsubsume : subsume .empty (.var "int") (.mvar k) r₁ = .ok () r₂ := rfl
    have hopen : skolemize arg .empty Ty.identity r₂ =
        .ok (scope, .arrow 8 (.skolem 0) (.skolem 0)) r := rfl
    have hvar : skolemize (.var "y") scope (.skolem 0) r = .ok (scope, .skolem 0) r := rfl
    have hargs : Leads _ (.check names .empty arg Ty.identity, r₂) :=
      (Leads.makes .refl hfn).makes (.arg hskolemize hhead htake hsubsume .here)
    exact (hargs.makes (.body hopen)).makes (.synth hvar (by simp) (by simp))
  have hsynth : synth names' scope (.var "y") r = .ok (.skolem 0) r := by
    rw [synth_var]
    rfl
  refine ⟨?_, hleads, hsynth, rfl, hcalls _ _ _ _ _ _ hleads hsynth⟩
  have hplain : (({} : Context).infer e env).1.toOption.map Ty.plain =
      some (.arrow 0 (.mvar m) (.var "int")) := by decide +kernel
  have hskolems : (({} : Context).infer e env).2.run.skolems = 1 := by decide +kernel
  generalize ({} : Context).infer e env = answer at *
  obtain ⟨_ | T, c'⟩ := answer
  · simp [Except.toOption] at hplain
  · exact ⟨T, c', rfl, by simpa [Except.toOption] using hplain, hskolems, hno T c' rfl⟩

end RankN
