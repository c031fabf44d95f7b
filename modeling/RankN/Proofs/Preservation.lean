import RankN.Proofs.Typing
import RankN.Proofs.Valid

/-!
# Every function keeps the run valid

Each function of the solver and of inference leaves a valid run behind, whether it succeeds or
stops, when it is given types of the run. The proofs follow the functions: the rules of
`RankN.Proofs.Steps` take a call apart, and the parts keep the run valid by the primitive operations
or by induction, on the steps left for the solver and on the expression for inference.
-/

namespace RankN

open RankN.Action

variable {P : Ty → Prop}

/-! ## Unification -/

section

variable {r : Run} {a b t : Ty} {m : MVar}

theorem mismatch_keeps {α : Type} (hr : r.Valid P) (a b : Ty) (Q : α → Run → Prop) :
    (mismatch a b : Solve α).Keeps P r Q := by
  unfold mismatch Keeps
  simp only [ensures_bind, ensures_lift]
  exact (hr.prune a).prune b

/-- A metavariable is solved only if the run stays valid. -/
theorem settle_keeps (hP : Ty.Stable P) (hr : r.Valid P) (ho : r.table.owns m)
    (hm : r.table.solution? m = none) (ht : t.Of P r) :
    (settle m t).Keeps P r fun _ r' => r' = r.solved m t := by
  refine ensures_settle (fun why _ => hr.prune t) fun hfree => ?_
  obtain ⟨hocc, hfit⟩ := (obstacle?_eq_none hr.acyclic hm).1 hfree
  refine ensures_assign ho hm (fun _ => hr) fun _ => ?_
  exact ⟨hr.solved hP ho hm ht hocc hfit, r.extends_solved hm t, rfl⟩

/-- Opening a quantifier at a skolem constant returns a type of the run. -/
theorem keeps_openAll_skolem {ε : Type} (hP : Ty.Stable P) (hr : r.Valid P) {n : Nat} {x : String}
    {body : Ty} (h : (Ty.all n x body).Of P r) {c : Int} (hc : r.Allocated c) :
    (liftM (openAll x body (.skolem c)) : Action ε Ty).Keeps P r fun t r' =>
      t.Of P r' ∧ r.Agrees r' ∧ r'.table.expand t = (r.table.expand body).replace x (.skolem c) :=
  have hbody : body.Over r := h.isOver
  keeps_openAll hr x hbody (by simpa [Ty.Over] using hc) (hP.atSkolem h.mem c)

/-- Opening a quantifier at an unsolved metavariable returns a type of the run. -/
theorem keeps_openAll_mvar {ε : Type} (hP : Ty.Stable P) (hr : r.Valid P) {n : Nat} {x : String}
    {body : Ty} (h : (Ty.all n x body).Of P r) (ho : r.table.owns m)
    (hm : r.table.solution? m = none) :
    (liftM (openAll x body (.mvar m)) : Action ε Ty).Keeps P r fun t r' =>
      t.Of P r' ∧ r.Agrees r' ∧ r'.table.expand t = (r.table.expand body).replace x (.mvar m) := by
  have hbody : body.Over r := h.isOver
  have hnew : (Ty.mvar m).Over r := by simpa [Ty.Over] using ho
  have hexp := Table.expand_unsolved hm
  have hopen : P ((r.table.expand body).replace x (r.table.expand (.mvar m))) := by
    rw [hexp]
    exact hP.atMVar h.mem m
  refine (keeps_openAll hr x hbody hnew hopen).mono fun t r' _ _ h => ?_
  rwa [hexp] at h

/-- The types `t'` and `u'` are the bodies `t` and `u` at the next skolem constant. -/
structure Opens (P : Ty → Prop) (r : Run) (x : String) (t : Ty) (y : String) (u : Ty) (t' u' : Ty)
    (r' : Run) : Prop where
  left : t'.Of P r'
  right : u'.Of P r'
  table : r'.table = r.table
  expand_left : r'.table.expand t' = (r.table.expand t).replace x (.skolem r.skolems)
  expand_right : r'.table.expand u' = (r.table.expand u).replace y (.skolem r.skolems)

/-- Two quantified types are opened at one new constant. -/
theorem ensures_opens (hP : Ty.Stable P) (hr : r.Valid P) {k k' : Nat} {x y : String} {t u : Ty}
    (ha : (Ty.all k x t).Of P r) (hb : (Ty.all k' y u).Of P r) {f : Ty → Ty → Solve Unit}
    {Q : Unit → Run → Prop} {E : Stop TypeError → Run → Prop}
    (h : ∀ t' u' r', r'.Valid P → r.Extends r' → Opens P r x t y u t' u' r' →
      (f t' u').Ensures r' Q E) :
    (do
      let c ← Run.newSkolem
      let t ← openAll x t (.skolem c)
      let u ← openAll y u (.skolem c)
      f t u : Solve Unit).Ensures r Q E := by
  obtain ⟨hr₁, he₁, -, hc, htable⟩ := ensures_lift.1 (keeps_newSkolem (ε := TypeError) hr)
  refine ensures_bind.2 (ensures_lift.2 (ensures_bind.2 (ensures_lift.2 ?_)))
  obtain ⟨hr₂, he₂, ht, hagree, hexp⟩ := ensures_lift.1
    (keeps_openAll_skolem (ε := TypeError) hP hr₁ (ha.mono hP hr hr₁ he₁) hc)
  refine ensures_bind.2 (ensures_lift.2 ?_)
  obtain ⟨hr₃, he₃, hu, hagree', hexp'⟩ := ensures_lift.1
    (keeps_openAll_skolem (ε := TypeError) hP hr₂ (hagree.of (hb.mono hP hr hr₁ he₁))
      (he₂.allocated hc))
  refine h _ _ _ hr₃ (he₁.trans (he₂.trans he₃))
    ⟨hagree'.of ht, hu, hagree'.table.trans (hagree.table.trans htable), ?_, ?_⟩
  · rw [hagree'.table, hexp, htable]
    rfl
  · rw [hexp', hagree.table, htable]
    rfl

/-- **Unification and solving keep runs valid.** -/
theorem unifyWithin_keeps (hP : Ty.Stable P) (n : Nat) :
    (∀ (a b : Ty) (r : Run), r.Valid P → a.Of P r → b.Of P r →
      (unifyWithin n a b).Keeps P r fun _ _ => True) ∧
    ∀ (m : MVar) (t : Ty) (r : Run), r.Valid P → r.table.owns m → t.Of P r →
      (solveWithin n m t).Keeps P r fun _ _ => True := by
  induction n with
  | zero =>
    refine ⟨fun a b r hr _ _ => ?_, fun m t r hr _ _ => ?_⟩
    · rw [unifyWithin]
      exact keeps_throw hr
    · rw [solveWithin]
      exact keeps_throw hr
  | succ n ih =>
    -- Two parts are made equal one after the other.
    have both : ∀ {p p' q q' : Ty} {r : Run}, r.Valid P → p.Of P r → p'.Of P r → q.Of P r →
        q'.Of P r → (do unifyWithin n p p'; unifyWithin n q q' : Solve Unit).Keeps P r
          fun _ _ => True := by
      intro p p' q q' r hr hp hp' hq hq'
      refine (ih.1 p p' r hr hp hp').bind fun _ r' hr' he _ => ?_
      exact ih.1 q q' r' hr' (hq.mono hP hr hr' he) (hq'.mono hP hr hr' he)
    refine ⟨fun a b r hr ha hb => ?_, fun m t r hr ho ht => ?_⟩
    · have hlog := r.agrees_log (.unify a b)
      have hr₁ := hlog.valid hr
      have ha₁ := hlog.of ha
      have hb₁ := hlog.of hb
      refine ensures_unifyWithin (fun _ => ⟨hr₁, hlog.extends_, trivial⟩) ?_ ?_ ?_ ?_ ?_
        (fun _ _ => (mismatch_keeps hr₁ a b _).after hlog.extends_)
      · rintro k p q k' p' q' rfl rfl
        rw [Ty.of_arrow hP] at ha₁ hb₁
        exact (both hr₁ ha₁.1 hb₁.1 ha₁.2 hb₁.2).after hlog.extends_
      · rintro k f x k' f' x' rfl rfl
        obtain ⟨hf, hx⟩ := ha₁.app hP
        obtain ⟨hf', hx'⟩ := hb₁.app hP
        exact (both hr₁ hf hf' hx hx').after hlog.extends_
      · rintro k x t k' y u rfl rfl
        refine ensures_opens hP hr₁ ha₁ hb₁ fun t' u' r₂ hr₂ he₂ ho => ?_
        exact (ih.1 t' u' r₂ hr₂ ho.left ho.right).after (hlog.extends_.trans he₂)
      · rintro m rfl
        exact (ih.2 m b _ hr₁ ha₁.owns hb₁).after hlog.extends_
      · rintro m rfl
        exact (ih.2 m a _ hr₁ hb₁.owns ha₁).after hlog.extends_
    · have hlog := r.agrees_log (.solve m t)
      have hr₁ := hlog.valid hr
      have ht₁ := hlog.of ht
      have ho₁ := hlog.extends_.owns m ho
      refine ensures_solveWithin (fun _ => ⟨hr₁, hlog.extends_, trivial⟩) ?_ ?_ ?_
      · intro u hu
        exact (ih.1 u t _ hr₁ (hlog.of (hr.solutions m u hu)) ht₁).after hlog.extends_
      · intro m' u _ _ hu
        exact (ih.2 m u _ hr₁ ho₁ (hlog.of (hr.solutions m' u hu))).after hlog.extends_
      · intro hm _ _
        rw [← hlog.table] at hm
        exact ((settle_keeps hP hr₁ ho₁ hm ht₁).mono fun _ _ _ _ _ => trivial).after hlog.extends_

theorem unify_keeps (hP : Ty.Stable P) (hr : r.Valid P) (ha : a.Of P r) (hb : b.Of P r) :
    (unify a b).Keeps P r fun _ _ => True :=
  keeps_get_bind ((unifyWithin_keeps hP _).1 a b r hr ha hb)

theorem solve_keeps (hP : Ty.Stable P) (hr : r.Valid P) (ho : r.table.owns m) (ht : t.Of P r) :
    (solve m t).Keeps P r fun _ _ => True :=
  keeps_get_bind ((unifyWithin_keeps hP _).2 m t r hr ho ht)

end

/-! ## Subsumption -/

/-- The scope holds skolem constants of the run. -/
def Scope.Over (r : Run) (scope : Scope) : Prop := ∀ id ∈ scope, r.Allocated id

instance (r : Run) (scope : Scope) : Decidable (scope.Over r) :=
  inferInstanceAs (Decidable (∀ id ∈ scope.ids, r.Allocated id))

theorem Scope.Over.mono {r r' : Run} {scope : Scope} (h : scope.Over r) (he : r.Extends r') :
    scope.Over r' := fun id hid => he.allocated (h id hid)

theorem Scope.Over.insert {r : Run} {scope : Scope} (h : scope.Over r) {c : Int}
    (hc : r.Allocated c) : (scope.insert c).Over r := by
  intro id hid
  rcases Scope.mem_insert.1 hid with rfl | hid
  · exact hc
  · exact h id hid

theorem subsumeWithin_keeps (hP : Ty.Stable P) (n : Nat) {scope : Scope} {a b : Ty} {r : Run}
    (hr : r.Valid P) (hs : scope.Over r) (ha : a.Of P r) (hb : b.Of P r) :
    (subsumeWithin n scope a b).Keeps P r fun _ _ => True := by
  induction n generalizing scope a b r with
  | zero =>
    rw [subsumeWithin]
    exact keeps_throw hr
  | succ n ih =>
    have hlog := r.agrees_log (.subsume a b)
    have hr₁ := hlog.valid hr
    have ha₁ := hlog.of ha
    have hb₁ := hlog.of hb
    have hs₁ := hs.mono hlog.extends_
    refine ensures_subsumeWithin ?_ ?_ fun _ _ =>
      (unify_keeps hP hr₁ ha₁ hb₁).after hlog.extends_
    · rintro k x t rfl
      refine Keeps.after hlog.extends_ ?_
      refine (keeps_newSkolem hr₁).bind fun c r₂ hr₂ he₂ hc => ?_
      have hb₂ := hb₁.mono hP hr₁ hr₂ he₂
      refine (keeps_openAll_skolem hP hr₂ hb₂ hc.2.1).bind fun t' r₃ hr₃ he₃ ht' => ?_
      refine ih hr₃ ?_ (ht'.2.1.of (ha₁.mono hP hr₁ hr₂ he₂)) ht'.1
      exact ((hs₁.mono he₂).insert hc.2.1).mono he₃
    · rintro k x t rfl
      refine Keeps.after hlog.extends_ ?_
      refine (keeps_newMVar hr₁ hs₁).bind fun m r₂ hr₂ he₂ hm => ?_
      have ha₂ := ha₁.mono hP hr₁ hr₂ he₂
      refine (keeps_openAll_mvar hP hr₂ ha₂ hm.owned hm.unsolved).bind fun t' r₃ hr₃ he₃ ht' => ?_
      exact ih hr₃ ((hs₁.mono he₂).mono he₃) ht'.1 (ht'.2.1.of (hb₁.mono hP hr₁ hr₂ he₂))

theorem subsume_keeps (hP : Ty.Stable P) {scope : Scope} {a b : Ty} {r : Run} (hr : r.Valid P)
    (hs : scope.Over r) (ha : a.Of P r) (hb : b.Of P r) :
    (subsume scope a b).Keeps P r fun _ _ => True :=
  keeps_get_bind (subsumeWithin_keeps hP _ hr hs ha hb)

/-! ## Parameters -/

/-- An unsolved metavariable is solved by an arrow between two new metavariables. -/
theorem exposeMVar_keeps (hP : Ty.Stable P) {m : MVar} {r : Run} (hr : r.Valid P)
    (ho : r.table.owns m) (hm : r.table.solution? m = none) :
    (exposeMVar m).Keeps P r fun ex r' =>
      ∃ k, r'.table.solution? m = some (.arrow k ex.param ex.rest) := by
  have hs : Scope.Over r m.scope := hr.scopes m ho
  refine (keeps_newMVar hr hs).bind fun p r₁ hr₁ he₁ hp => ?_
  refine (keeps_newMVar hr₁ (hs.mono he₁)).bind fun q r₂ hr₂ he₂ hq => ?_
  refine (keeps_newArrow hr₂ (.mvar p) (.mvar q)).bind fun t r₃ hr₃ he₃ ht => ?_
  obtain ⟨⟨n, rfl⟩, hag⟩ := ht
  have hexp : r₃.table.expand (.arrow n (.mvar p) (.mvar q)) = .arrow 0 (.mvar p) (.mvar q) := by
    rw [hag.table, hp.expand_arrow hq]
  have harrow : (Ty.arrow n (.mvar p) (.mvar q)).Of P r₃ :=
    (Ty.of_arrow hP).2 ⟨Ty.of_mvar hP hr₃ ((he₂.trans he₃).owns p hp.owned),
      Ty.of_mvar hP hr₃ (he₃.owns q hq.owned)⟩
  have hmo : r₃.table.owns m := ((he₁.trans he₂).trans he₃).owns m ho
  have hmu : r₃.table.solution? m = none := by rw [hag.table, hq.solution, hp.solution, hm]
  have hocc : m ∉ (r₃.table.expand (.arrow n (.mvar p) (.mvar q))).mvars := by
    simp [hexp, hp.ne_of_owns ho, hq.ne_of_owns (he₁.owns m ho)]
  have hfit : (r₃.table.expand (.arrow n (.mvar p) (.mvar q))).Fits m.scope := by
    rw [hexp]
    simp [Ty.Fits, hp.scope, hq.scope]
  refine ensures_bind.2 (ensures_assign hmo hmu (fun h => by cases h) fun _ => ?_)
  exact ⟨hr₃.solved hP hmo hmu harrow hocc hfit, r₃.extends_solved hmu _, n,
    Table.solution?_write_self hmo _⟩

/-- A parameter and what is left are types of the run. -/
theorem exposeWithin_keeps (hP : Ty.Stable P) (n : Nat) {scope : Scope} {args : List Expr} {t : Ty}
    {r : Run} (hr : r.Valid P) (hs : scope.Over r) (ht : t.Of P r) :
    (exposeWithin scope args n t).Keeps P r fun ex r' => ex.param.Of P r' ∧ ex.rest.Of P r' := by
  induction n generalizing t r with
  | zero =>
    rw [exposeWithin]
    exact keeps_throw hr
  | succ n ih =>
    refine ensures_exposeWithin ?_ ?_ ?_ ?_ fun _ _ _ => hr.prune t
    · rintro k x body rfl
      refine (keeps_newMVar hr hs).bind fun m r₁ hr₁ he₁ hm => ?_
      refine (keeps_openAll_mvar hP hr₁ (ht.mono hP hr hr₁ he₁) hm.owned hm.unsolved).bind
        fun t' r₂ hr₂ he₂ ht' => ?_
      exact ih hr₂ ((hs.mono he₁).mono he₂) ht'.1
    · rintro k p q rfl
      exact ⟨hr, .refl r, (Ty.of_arrow hP).1 ht⟩
    · rintro m u rfl hu
      exact ih hr hs (hr.solutions m u hu)
    · rintro m rfl hm
      refine (exposeMVar_keeps hP hr ht.owns hm).mono fun ex r' hr' _ h => ?_
      obtain ⟨k, hsol⟩ := h
      exact (Ty.of_arrow hP).1 (hr'.solutions m _ hsol)

theorem expose_keeps (hP : Ty.Stable P) {scope : Scope} (args : List Expr) {t : Ty} {r : Run}
    (hr : r.Valid P) (hs : scope.Over r) (ht : t.Of P r) :
    (expose scope args t).Keeps P r fun ex r' => ex.param.Of P r' ∧ ex.rest.Of P r' :=
  keeps_get_bind (exposeWithin_keeps hP _ hr hs ht)

/-- The parameters taken and the type of the application are types of the run. -/
theorem takeAll_keeps (hP : Ty.Stable P) {scope : Scope} (args : List Expr) {t : Ty} {r : Run}
    (hr : r.Valid P) (hs : scope.Over r) (ht : t.Of P r) :
    (Parameters.takeAll scope t args).Keeps P r fun ps r' =>
      (∀ p ∈ ps.1, p.Of P r') ∧ ps.2.Of P r' := by
  induction args generalizing t r with
  | nil =>
    rw [Parameters.takeAll_nil]
    exact keeps_pure hr ⟨by simp, ht⟩
  | cons arg args ih =>
    rw [Parameters.takeAll_cons]
    refine (expose_keeps hP (arg :: args) hr hs ht).bind fun ex r₁ hr₁ he₁ hex => ?_
    refine (ih hr₁ (hs.mono he₁) hex.2).bind fun ps r₂ hr₂ he₂ hps => ?_
    refine keeps_pure hr₂ ⟨fun p hp => ?_, hps.2⟩
    rcases List.mem_cons.1 hp with rfl | hp
    · exact hex.1.mono hP hr₁ hr₂ he₂
    · exact hps.1 p hp

/-! ## Inference -/

/-- All types that the names are given are in `P`. -/
structure Names.Every (P : Ty → Prop) (names : Names) : Prop where
  locals : ∀ x t, Layer.find? names.locals x = some t → P t
  env : ∀ x t, names.env.find? x = some t → P t

/-- All annotations are in `P`. -/
def Expr.Every (P : Ty → Prop) (e : Expr) : Prop := ∀ t ∈ e.annotations, P t

section

variable {P Q : Ty → Prop} {names : Names} {e : Expr}

theorem Names.Every.mono (h : names.Every P) (hPQ : ∀ t, P t → Q t) : names.Every Q :=
  ⟨fun x t ht => hPQ t (h.locals x t ht), fun x t ht => hPQ t (h.env x t ht)⟩

theorem Names.Every.insert (h : names.Every P) (x : String) {t : Ty} (ht : P t) :
    (names.insert x t).Every P := by
  refine ⟨fun y u hy => ?_, h.env⟩
  rw [Names.insert, Layer.find?_insert] at hy
  split at hy
  · cases hy
    exact ht
  · exact h.locals y u hy

theorem Names.Every.find (h : names.Every P) {x : String} {t : Ty}
    (hx : names.find? x = .ok (some t)) : P t := by
  unfold Names.find? Locals.find? at hx
  cases hl : Layer.find? names.locals x with
  | none =>
    rw [hl] at hx
    exact h.env x t (by simpa [bind, Except.bind, pure, Except.pure] using hx)
  | some u =>
    rw [hl] at hx
    cases u <;> simp [bind, Except.bind, pure, Except.pure] at hx <;> exact hx ▸ h.locals x _ hl

theorem Expr.Every.mono (h : e.Every P) (hPQ : ∀ t, P t → Q t) : e.Every Q :=
  fun t ht => hPQ t (h t ht)

theorem Expr.Every.head (h : e.Every P) : e.head.Every P := by
  induction e with
  | app f a ihf _ => exact ihf fun t ht => h t (List.mem_append_left _ ht)
  | _ => exact h

theorem Expr.Every.arg (h : e.Every P) {a : Expr} (ha : a ∈ e.args) : a.Every P := by
  induction e with
  | app f b ihf _ =>
    rw [Expr.args, List.mem_append, List.mem_singleton] at ha
    rcases ha with ha | rfl
    · exact ihf (fun t ht => h t (List.mem_append_left _ ht)) ha
    · exact fun t ht => h t (List.mem_append_right _ ht)
  | _ => simp [Expr.args] at ha

end

/-- What a call of `check` or `synth` may be given in a run. -/
structure Given (P : Ty → Prop) (r : Run) (names : Names) (scope : Scope) (e : Expr) : Prop where
  scope : scope.Over r
  names : names.Every (·.Of P r)
  expr : e.Every (·.Of P r)

section

variable {r r' : Run} {names : Names} {scope : Scope} {e : Expr}

theorem Given.mono (hP : Ty.Stable P) (h : Given P r names scope e) (hr : r.Valid P)
    (hr' : r'.Valid P) (he : r.Extends r') : Given P r' names scope e :=
  ⟨h.scope.mono he, h.names.mono fun _ ht => ht.mono hP hr hr' he,
    h.expr.mono fun _ ht => ht.mono hP hr hr' he⟩

theorem Given.agrees (h : Given P r names scope e) (ha : r.Agrees r') :
    Given P r' names scope e :=
  ⟨h.scope.mono ha.extends_, h.names.mono fun _ => ha.of, h.expr.mono fun _ => ha.of⟩

theorem Given.head (h : Given P r names scope e) : Given P r names scope e.head :=
  ⟨h.scope, h.names, h.expr.head⟩

theorem Given.arg (h : Given P r names scope e) {a : Expr} (ha : a ∈ e.args) :
    Given P r names scope a := ⟨h.scope, h.names, h.expr.arg ha⟩

theorem Given.ann {t : Ty} (h : Given P r names scope (.ann e t)) :
    Given P r names scope e ∧ t.Of P r :=
  ⟨⟨h.scope, h.names, fun u hu => h.expr u (List.mem_cons_of_mem _ hu)⟩,
    h.expr t List.mem_cons_self⟩

theorem Given.body {x : String} (h : Given P r names scope (.fn x e)) {t : Ty} (ht : t.Of P r) :
    Given P r (names.insert x t) scope e := ⟨h.scope, h.names.insert x ht, h.expr⟩

theorem keeps_solving {α : Type} {x : Solve α} {Q : α → Run → Prop} (h : x.Keeps P r Q)
    (e : Expr) : (solving e x).Keeps P r Q := ensures_solving.2 h

/-- Expecting a type leaves a type of the run, and a scope of the run. -/
theorem skolemizeWithin_keeps (hP : Ty.Stable P) (n : Nat) {t : Ty} (hr : r.Valid P)
    (hs : scope.Over r) (ht : t.Of P r) :
    (skolemizeWithin e n scope t).Keeps P r fun p r' => p.1.Over r' ∧ p.2.Of P r' := by
  induction n generalizing scope t r with
  | zero =>
    rw [skolemizeWithin_zero]
    exact keeps_throw hr
  | succ n ih =>
    have hlog := r.agrees_log (.check e t)
    have hr₁ := hlog.valid hr
    have ht₁ := hlog.of ht
    have hs₁ := hs.mono hlog.extends_
    refine ensures_skolemizeWithin ?_ ?_ fun _ _ => ⟨hr₁, hlog.extends_, hs₁, ht₁⟩
    · rintro m u rfl hu
      exact (ih hr₁ hs₁ (hlog.of (hr.solutions m u hu))).after hlog.extends_
    · rintro k x body rfl
      refine Keeps.after hlog.extends_ ?_
      refine (keeps_newSkolem hr₁).bind fun c r₂ hr₂ he₂ hc => ?_
      refine (keeps_openAll_skolem hP hr₂ (ht₁.mono hP hr₁ hr₂ he₂) hc.2.1).bind
        fun t' r₃ hr₃ he₃ ht' => ?_
      exact ih hr₃ (((hs₁.mono he₂).insert hc.2.1).mono he₃) ht'.1

theorem skolemize_keeps (hP : Ty.Stable P) (e : Expr) {t : Ty} (hr : r.Valid P)
    (hs : scope.Over r) (ht : t.Of P r) :
    (skolemize e scope t).Keeps P r fun p r' => p.1.Over r' ∧ p.2.Of P r' :=
  keeps_get_bind (skolemizeWithin_keeps hP _ hr hs ht)

/-- Checking an expression keeps runs valid. -/
def CheckKeeps (P : Ty → Prop) (e : Expr) : Prop :=
  ∀ (names : Names) (scope : Scope) (t : Ty) (r : Run), r.Valid P → Given P r names scope e →
    t.Of P r → (check names scope e t).Keeps P r fun _ _ => True

/-- Synthesizing a type keeps runs valid and returns a type of the run. -/
def SynthKeeps (P : Ty → Prop) (e : Expr) : Prop :=
  ∀ (names : Names) (scope : Scope) (r : Run), r.Valid P → Given P r names scope e →
    (synth names scope e).Keeps P r fun t r' => t.Of P r'

theorem checkArgs_keeps (hP : Ty.Stable P) {args : List Expr} {params : List Ty}
    (hargs : ∀ a ∈ args, CheckKeeps P a) (hr : r.Valid P)
    (hgiven : ∀ a ∈ args, Given P r names scope a) (hparams : ∀ p ∈ params, p.Of P r) :
    (checkArgs names scope args params).Keeps P r fun _ _ => True := by
  induction args generalizing params r with
  | nil => exact keeps_pure hr trivial
  | cons a args ih =>
    cases params with
    | nil => exact keeps_pure hr trivial
    | cons p params =>
      rw [checkArgs_cons]
      simp only [List.forall_mem_cons] at hargs hgiven hparams
      refine (hargs.1 names scope p r hr hgiven.1 hparams.1).bind fun _ r₁ hr₁ he₁ _ => ?_
      exact ih hargs.2 hr₁ (fun b hb => (hgiven.2 b hb).mono hP hr hr₁ he₁)
        fun q hq => (hparams.2 q hq).mono hP hr hr₁ he₁

theorem synth_keeps_step (hP : Ty.Stable P) (e : Expr)
    (ih : ∀ e', e'.size < e.size → CheckKeeps P e' ∧ SynthKeeps P e') : SynthKeeps P e := by
  intro names scope r hr hg
  have hother : (e = .absent ∨ (∃ k, e = .unknown k) ∨ ∃ e', e = .ann e' .absent) →
      (synth names scope e).Keeps P r fun t r' => t.Of P r' := by
    intro h
    rw [synth_other names scope h]
    exact (keeps_log hr _).bind fun _ r₁ hr₁ _ _ => keeps_throw hr₁
  cases e with
  | var x =>
    rw [synth_var]
    refine (keeps_log hr _).bind fun _ r₁ hr₁ _ hlog => ?_
    split
    · rename_i t hx
      exact keeps_pure hr₁ ((hg.agrees hlog).names.find hx)
    · exact keeps_throw hr₁
    · exact keeps_throw hr₁
  | fn x body =>
    rw [synth_fn]
    refine (keeps_log hr _).bind fun _ r₁ hr₁ _ hlog => ?_
    have hg₁ := hg.agrees hlog
    refine (keeps_newMVar hr₁ hg₁.scope).bind fun p r₂ hr₂ he₂ hp => ?_
    have hg₂ := hg₁.mono hP hr₁ hr₂ he₂
    refine (keeps_newMVar hr₂ hg₂.scope).bind fun q r₃ hr₃ he₃ hq => ?_
    have hp₃ : (Ty.mvar p).Of P r₃ := Ty.of_mvar hP hr₃ (he₃.owns p hp.owned)
    have hq₃ : (Ty.mvar q).Of P r₃ := Ty.of_mvar hP hr₃ hq.owned
    refine ((ih body (by simp only [Expr.size]; omega)).1 _ _ _ r₃ hr₃
      ((hg₂.mono hP hr₂ hr₃ he₃).body hp₃) hq₃).bind fun _ r₄ hr₄ he₄ _ => ?_
    refine (keeps_newArrow hr₄ _ _).mono fun t r₅ _ _ ht => ?_
    obtain ⟨⟨n, rfl⟩, hag⟩ := ht
    exact (Ty.of_arrow hP).2 ⟨hag.of (hp₃.mono hP hr₃ hr₄ he₄), hag.of (hq₃.mono hP hr₃ hr₄ he₄)⟩
  | app f a =>
    rw [synth_app]
    refine (keeps_log hr _).bind fun _ r₁ hr₁ _ hlog => ?_
    have hg₁ := hg.agrees hlog
    refine ((ih _ (Expr.size_head_lt f a)).2 names scope r₁ hr₁ hg₁.head).bind
      fun ft r₂ hr₂ he₂ hft => ?_
    have hg₂ := hg₁.mono hP hr₁ hr₂ he₂
    refine (keeps_solving (takeAll_keeps hP _ hr₂ hg₂.scope hft) _).bind fun ps r₃ hr₃ he₃ hps => ?_
    have hg₃ := hg₂.mono hP hr₂ hr₃ he₃
    refine (checkArgs_keeps hP (fun b hb => (ih b (Expr.size_lt_of_mem_args hb)).1) hr₃
      (fun b hb => hg₃.arg hb) hps.1).bind fun _ r₄ hr₄ he₄ _ => ?_
    exact keeps_pure hr₄ (hps.2.mono hP hr₃ hr₄ he₄)
  | ann e' t =>
    by_cases ht : t = .absent
    · subst ht
      exact hother (.inr (.inr ⟨e', rfl⟩))
    · rw [synth_ann names scope e' ht]
      refine (keeps_log hr _).bind fun _ r₁ hr₁ _ hlog => ?_
      obtain ⟨hg₁, ht₁⟩ := (hg.agrees hlog).ann
      refine ((ih e' (by simp only [Expr.size]; omega)).1 names scope t r₁ hr₁ hg₁ ht₁).bind
        fun _ r₂ hr₂ he₂ _ => ?_
      exact keeps_pure hr₂ (ht₁.mono hP hr₁ hr₂ he₂)
  | unknown k => exact hother (.inr (.inl ⟨k, rfl⟩))
  | absent => exact hother (.inl rfl)

theorem check_keeps_step (hP : Ty.Stable P) (e : Expr) (hs : SynthKeeps P e)
    (ih : ∀ e', e'.size < e.size → CheckKeeps P e' ∧ SynthKeeps P e') : CheckKeeps P e := by
  intro names scope t r hr hg ht
  rw [check_eq]
  refine (skolemize_keeps hP e hr hg.scope ht).bind fun ⟨scope, t⟩ r₁ hr₁ he₁ hp => ?_
  obtain ⟨hscope, ht₁⟩ := hp
  have hg₁ : Given P r₁ names scope e := { hg.mono hP hr hr₁ he₁ with scope := hscope }
  -- Every expression but an application, and a function against an arrow, is synthesized first.
  have hsub : (do
      let found ← synth names scope e
      solving e (subsume scope found t) : Infer Unit).Keeps P r₁ fun _ _ => True := by
    refine (hs names scope r₁ hr₁ hg₁).bind fun found r₂ hr₂ he₂ hf => ?_
    exact keeps_solving (subsume_keeps hP hr₂ (hg₁.scope.mono he₂) hf (ht₁.mono hP hr₁ hr₂ he₂)) e
  cases e with
  | fn x body =>
    cases t with
    | arrow k p q =>
      obtain ⟨hp, hq⟩ := (Ty.of_arrow hP).1 ht₁
      exact (ih body (by simp only [Expr.size]; omega)).1 _ _ _ r₁ hr₁ (hg₁.body hp) hq
    | _ => exact hsub
  | app f a =>
    refine ((ih _ (Expr.size_head_lt f a)).2 names scope r₁ hr₁ hg₁.head).bind
      fun ft r₂ hr₂ he₂ hft => ?_
    have hg₂ := hg₁.mono hP hr₁ hr₂ he₂
    refine (keeps_solving (takeAll_keeps hP _ hr₂ hg₂.scope hft) _).bind fun ps r₃ hr₃ he₃ hps => ?_
    have hg₃ := hg₂.mono hP hr₂ hr₃ he₃
    have ht₃ := (ht₁.mono hP hr₁ hr₂ he₂).mono hP hr₂ hr₃ he₃
    refine (keeps_solving (subsume_keeps hP hr₃ hg₃.scope hps.2 ht₃) _).bind
      fun _ r₄ hr₄ he₄ _ => ?_
    have hg₄ := hg₃.mono hP hr₃ hr₄ he₄
    exact checkArgs_keeps hP (fun b hb => (ih b (Expr.size_lt_of_mem_args hb)).1) hr₄
      (fun b hb => hg₄.arg hb) fun p hp => (hps.1 p hp).mono hP hr₃ hr₄ he₄
  | _ => exact hsub

/-- **Inference keeps runs valid.** -/
theorem infer_keeps (hP : Ty.Stable P) (e : Expr) : CheckKeeps P e ∧ SynthKeeps P e :=
  infer_induction (synth_keeps_step hP) (check_keeps_step hP) e

theorem check_keeps (hP : Ty.Stable P) {t : Ty} (hr : r.Valid P) (hg : Given P r names scope e)
    (ht : t.Of P r) : (check names scope e t).Keeps P r fun _ _ => True :=
  (infer_keeps hP e).1 names scope t r hr hg ht

theorem synth_keeps (hP : Ty.Stable P) (hr : r.Valid P) (hg : Given P r names scope e) :
    (synth names scope e).Keeps P r fun t r' => t.Of P r' :=
  (infer_keeps hP e).2 names scope r hr hg

end

end RankN
