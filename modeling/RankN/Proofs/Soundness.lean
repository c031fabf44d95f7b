import RankN.Proofs.Models

/-!
# Soundness of inference

What inference accepts is typable in implicitly typed System F.

**While inference runs** its types contain metavariables, and the tables in which they are solved
change. The statement that the steps preserve is therefore about models: if a call succeeds, then in
every model of the table it leaves, the expression has the type that the model makes of the call's
type. Later steps only narrow the models (`RankN.Proofs.Models`), so what holds in all of them is not
lost.

**Generalisation.** A quantifier of an expected type is opened at a new constant `c`. Nothing around
the expression mentions `c` in any model: the names in force have types of the run before `c` was
allocated, and a metavariable in them means only constants of its own scope. So `c` can be
generalised again.

Main result: `infer_sound`.
-/

namespace RankN

open RankN.Action

variable {P : Ty → Prop} {B : String → Prop} {r r' : Run} {names : Names} {scope : Scope}
  {e : Expr}

/-! ## Generalisation -/

/-- The next constant occurs in no assumption. -/
theorem Given.avoids_names (hr : r.Valid P) (hg : Given P r names scope e) (θ : Assignment) :
    (names.assume θ).Avoids (.skolem r.skolems) := by
  intro x A hA
  obtain ⟨t, ht, rfl⟩ := Option.map_eq_some_iff.1 hA
  exact (hg.names.lookup ht).isOver.fresh hr []

/-- The next constant occurs in no annotation. -/
theorem Given.avoids_expr (hr : r.Valid P) (hg : Given P r names scope e) :
    e.Avoids (.skolem r.skolems) := by
  intro t ht
  have hfresh := (hg.expr t ht).isOver.fresh (θ := Assignment.constant) hr []
  exact hfresh

/-- What has a type at the next constant has the quantified type. -/
theorem HasType.generalize (hr : r.Valid P) (hg : Given P r names scope e) {n : Nat} {x : String}
    {body : Ty} (hall : (Ty.all n x body).Over r) (θ : Assignment)
    (h : HasType (names.assume θ) e
      ((body.read θ.type [x]).instantiate 0 (.const (.skolem r.skolems)))) :
    HasType (names.assume θ) e (θ.read (.all n x body)) :=
  have hbody : body.Over r := hall
  .gen h (hbody.fresh hr [x]) (hg.avoids_names hr θ) (hg.avoids_expr hr)

/-! ## Subsumption -/

/-- What has the one type has the other, in every model. -/
def Passes (names : Names) (e : Expr) (a b : Ty) (r' : Run) : Prop :=
  ∀ θ : Assignment, θ.Models r'.table →
    HasType (names.assume θ) e (θ.read a) → HasType (names.assume θ) e (θ.read b)

theorem subsumeWithin_sound (hP : Ty.Stable P) (hPB : ∀ t, P t → t.Named B []) (n : Nat)
    {a b : Ty} (hr : r.Valid P) (hg : Given P r names scope e) (ha : a.Of P r) (hb : b.Of P r) :
    (subsumeWithin n scope a b).Keeps P r fun _ r' => Passes names e a b r' := by
  induction n generalizing scope a b r with
  | zero =>
    rw [subsumeWithin]
    exact keeps_throw hr
  | succ n ih =>
    have hlog := r.agrees_log (.subsume a b)
    have hr₁ := hlog.valid hr
    have ha₁ := hlog.of ha
    have hb₁ := hlog.of hb
    have hg₁ := hg.agrees hlog
    refine ensures_subsumeWithin ?_ ?_ fun _ _ => ?_
    · rintro k x t rfl
      refine Keeps.after hlog.extends_ ?_
      refine (keeps_newSkolem hr₁).bind fun c r₂ hr₂ he₂ hc => ?_
      have hb₂ := hb₁.mono hP hr₁ hr₂ he₂
      refine (keeps_openAll_skolem hP hr₂ hb₂ hc.2.1).bind fun t' r₃ hr₃ he₃ ht' => ?_
      have hg₃ : Given P r₃ names (scope.insert c) e :=
        { (hg₁.mono hP hr₁ hr₂ he₂).mono hP hr₂ hr₃ he₃ with
          scope := ((hg₁.scope.mono he₂).insert hc.2.1).mono he₃ }
      refine (ih hr₃ hg₃ (ht'.2.1.of (ha₁.mono hP hr₁ hr₂ he₂)) ht'.1).mono
        fun _ r₄ _ he₄ h θ hm hty => ?_
      have hm₂ : θ.Models r₂.table := hm.of_extends (he₃.trans he₄)
      have hread := hm₂.read_openAll hr₂ hr₃ hPB hb₂ (fun _ => rfl) ht'.1 ht'.2.1.table ht'.2.2
      have hopen := h θ hm hty
      rw [hread, hc.1] at hopen
      exact hopen.generalize hr₁ hg₁ hb₁.isOver θ
    · rintro k x t rfl
      refine Keeps.after hlog.extends_ ?_
      refine (keeps_newMVar hr₁ hg₁.scope).bind fun m r₂ hr₂ he₂ hm => ?_
      have ha₂ := ha₁.mono hP hr₁ hr₂ he₂
      refine (keeps_openAll_mvar hP hr₂ ha₂ hm.owned hm.unsolved).bind fun t' r₃ hr₃ he₃ ht' => ?_
      have hg₃ := (hg₁.mono hP hr₁ hr₂ he₂).mono hP hr₂ hr₃ he₃
      refine (ih hr₃ hg₃ ht'.1 (ht'.2.1.of (hb₁.mono hP hr₁ hr₂ he₂))).mono
        fun _ r₄ _ he₄ h θ hmod hty => ?_
      have hm₂ : θ.Models r₂.table := hmod.of_extends (he₃.trans he₄)
      have hread := hm₂.read_openAll hr₂ hr₃ hPB ha₂ (fun _ => rfl) ht'.1 ht'.2.1.table ht'.2.2
      refine h θ hmod ?_
      rw [hread]
      exact hty.inst (θ.closed m)
    · refine Keeps.after hlog.extends_ ?_
      refine (unify_models hP hPB hr₁ ha₁ hb₁).mono fun _ r₂ _ _ h θ hmod hty => ?_
      rwa [← ((h θ).1 hmod).2]

theorem subsume_sound (hP : Ty.Stable P) (hPB : ∀ t, P t → t.Named B []) {a b : Ty}
    (hr : r.Valid P) (hg : Given P r names scope e) (ha : a.Of P r) (hb : b.Of P r) :
    (subsume scope a b).Keeps P r fun _ r' => Passes names e a b r' :=
  keeps_get_bind (subsumeWithin_sound hP hPB _ hr hg ha hb)

/-! ## Parameters -/

/-- What has the type that is exposed has the function type, in every model. -/
theorem exposeWithin_sound (hP : Ty.Stable P) (hPB : ∀ t, P t → t.Named B []) (n : Nat)
    (args : List Expr) {t : Ty} (hr : r.Valid P) (hs : scope.Over r) (ht : t.Of P r) :
    (exposeWithin scope args n t).Keeps P r fun ex r' =>
      ∀ θ : Assignment, θ.Models r'.table → ∀ Γ f, HasType Γ f (θ.read t) →
        HasType Γ f (.arrow (θ.read ex.param) (θ.read ex.rest)) := by
  induction n generalizing t r with
  | zero =>
    rw [exposeWithin]
    exact keeps_throw hr
  | succ n ih =>
    refine ensures_exposeWithin ?_ ?_ ?_ ?_ fun _ _ _ => hr.prune t
    · rintro k x body rfl
      refine (keeps_newMVar hr hs).bind fun m r₁ hr₁ he₁ hm => ?_
      have ht₁ := ht.mono hP hr hr₁ he₁
      refine (keeps_openAll_mvar hP hr₁ ht₁ hm.owned hm.unsolved).bind fun t' r₂ hr₂ he₂ ht' => ?_
      refine (ih hr₂ ((hs.mono he₁).mono he₂) ht'.1).mono fun ex r₃ _ he₃ h θ hmod Γ f hty => ?_
      have hm₁ : θ.Models r₁.table := hmod.of_extends (he₂.trans he₃)
      have hread := hm₁.read_openAll hr₁ hr₂ hPB ht₁ (fun _ => rfl) ht'.1 ht'.2.1.table ht'.2.2
      refine h θ hmod Γ f ?_
      rw [hread]
      exact hty.inst (θ.closed m)
    · rintro k p q rfl
      exact ⟨hr, .refl r, fun θ _ Γ f hty => hty⟩
    · rintro m u rfl hu
      refine (ih hr hs (hr.solutions m u hu)).mono fun ex r' _ he h θ hmod Γ f hty => ?_
      refine h θ hmod Γ f ?_
      rwa [show θ.read (.mvar m) = θ.read u from hmod m u (he.solution m u hu)] at hty
    · rintro m rfl hm
      refine (exposeMVar_keeps hP hr ht.owns hm).mono fun ex r' _ _ h θ hmod Γ f hty => ?_
      obtain ⟨k, hsol⟩ := h
      rwa [show θ.read (.mvar m) = θ.read (.arrow k ex.param ex.rest) from hmod m _ hsol] at hty

theorem expose_sound (hP : Ty.Stable P) (hPB : ∀ t, P t → t.Named B []) (args : List Expr)
    {t : Ty} (hr : r.Valid P) (hs : scope.Over r) (ht : t.Of P r) :
    (expose scope args t).Keeps P r fun ex r' =>
      ∀ θ : Assignment, θ.Models r'.table → ∀ Γ f, HasType Γ f (θ.read t) →
        HasType Γ f (.arrow (θ.read ex.param) (θ.read ex.rest)) :=
  keeps_get_bind (exposeWithin_sound hP hPB _ args hr hs ht)

/-- If arguments have the types of the parameters taken for them, the application has the type that
is left, in every model. -/
theorem takeAll_sound (hP : Ty.Stable P) (hPB : ∀ t, P t → t.Named B []) (args : List Expr)
    {t : Ty} (hr : r.Valid P) (hs : scope.Over r) (ht : t.Of P r) :
    (Parameters.takeAll scope t args).Keeps P r fun ps r' =>
      ∀ θ : Assignment, θ.Models r'.table → ∀ Γ f, HasType Γ f (θ.read t) →
        (∀ p ∈ args.zip ps.1, HasType Γ p.1 (θ.read p.2)) →
        HasType Γ (f.apps args) (θ.read ps.2) := by
  induction args generalizing t r with
  | nil => exact keeps_pure hr fun θ _ Γ f hty _ => hty
  | cons arg args ih =>
    rw [Parameters.takeAll_cons]
    refine ((expose_keeps hP (arg :: args) hr hs ht).and
      (expose_sound hP hPB (arg :: args) hr hs ht)).bind fun ex r₁ hr₁ he₁ hex => ?_
    refine (ih hr₁ (hs.mono he₁) hex.1.2).bind fun ps r₂ hr₂ he₂ h => ?_
    refine keeps_pure hr₂ fun θ hmod Γ f hty hargs => ?_
    have hfn := hex.2 θ (hmod.of_extends he₂) Γ f hty
    simp only [List.zip_cons_cons, List.forall_mem_cons] at hargs
    exact h θ hmod Γ (.app f arg) (.app hfn hargs.1) hargs.2

/-! ## Inference -/

/-- What has the type that is left of an expected type has the expected type, in every model. -/
theorem skolemizeWithin_sound (hP : Ty.Stable P) (hPB : ∀ t, P t → t.Named B []) (n : Nat) {t : Ty}
    (hr : r.Valid P) (hg : Given P r names scope e) (ht : t.Of P r) :
    (skolemizeWithin e n scope t).Keeps P r fun p r' => Passes names e p.2 t r' := by
  induction n generalizing scope t r with
  | zero =>
    rw [skolemizeWithin_zero]
    exact keeps_throw hr
  | succ n ih =>
    have hlog := r.agrees_log (.check e t)
    have hr₁ := hlog.valid hr
    have ht₁ := hlog.of ht
    have hg₁ := hg.agrees hlog
    refine ensures_skolemizeWithin ?_ ?_ fun _ _ => ⟨hr₁, hlog.extends_, fun _ _ h => h⟩
    · rintro m u rfl hu
      refine Keeps.after hlog.extends_ ?_
      refine (ih hr₁ hg₁ (hlog.of (hr.solutions m u hu))).mono fun p r' _ he h θ hmod hty => ?_
      have hsol := (hlog.extends_.trans he).solution m u hu
      rw [show θ.read (.mvar m) = θ.read u from hmod m u hsol]
      exact h θ hmod hty
    · rintro k x body rfl
      refine Keeps.after hlog.extends_ ?_
      refine (keeps_newSkolem hr₁).bind fun c r₂ hr₂ he₂ hc => ?_
      have ht₂ := ht₁.mono hP hr₁ hr₂ he₂
      refine (keeps_openAll_skolem hP hr₂ ht₂ hc.2.1).bind fun t' r₃ hr₃ he₃ ht' => ?_
      have hg₃ : Given P r₃ names (scope.insert c) e :=
        { (hg₁.mono hP hr₁ hr₂ he₂).mono hP hr₂ hr₃ he₃ with
          scope := ((hg₁.scope.mono he₂).insert hc.2.1).mono he₃ }
      refine (ih hr₃ hg₃ ht'.1).mono fun p r₄ _ he₄ h θ hmod hty => ?_
      have hm₂ : θ.Models r₂.table := hmod.of_extends (he₃.trans he₄)
      have hread := hm₂.read_openAll hr₂ hr₃ hPB ht₂ (fun _ => rfl) ht'.1 ht'.2.1.table ht'.2.2
      have hopen := h θ hmod hty
      rw [hread, hc.1] at hopen
      exact hopen.generalize hr₁ hg₁ ht₁.isOver θ

theorem skolemize_sound (hP : Ty.Stable P) (hPB : ∀ t, P t → t.Named B []) {t : Ty}
    (hr : r.Valid P) (hg : Given P r names scope e) (ht : t.Of P r) :
    (skolemize e scope t).Keeps P r fun p r' => Passes names e p.2 t r' :=
  keeps_get_bind (skolemizeWithin_sound hP hPB _ hr hg ht)

/-- The expression has the type, in every model. -/
def Typed (names : Names) (e : Expr) (t : Ty) (r' : Run) : Prop :=
  ∀ θ : Assignment, θ.Models r'.table → HasType (names.assume θ) e (θ.read t)

theorem Typed.mono {t : Ty} (h : Typed names e t r) (he : r.Extends r') : Typed names e t r' :=
  fun θ hmod => h θ (hmod.of_extends he)

/-- If an expression is checked against a type, it has this type. -/
def CheckSound (P : Ty → Prop) (e : Expr) : Prop :=
  ∀ (names : Names) (scope : Scope) (t : Ty) (r : Run), e.Every Ty.Ground → r.Valid P →
    Given P r names scope e → t.Of P r →
    (check names scope e t).Keeps P r fun _ r' => Typed names e t r'

/-- An expression has the type that is synthesized for it. -/
def SynthSound (P : Ty → Prop) (e : Expr) : Prop :=
  ∀ (names : Names) (scope : Scope) (r : Run), e.Every Ty.Ground → r.Valid P →
    Given P r names scope e → (synth names scope e).Keeps P r fun t r' => Typed names e t r'

theorem checkArgs_sound (hP : Ty.Stable P) {args : List Expr} {params : List Ty}
    (hargs : ∀ a ∈ args, CheckSound P a) (hground : ∀ a ∈ args, a.Every Ty.Ground)
    (hr : r.Valid P) (hgiven : ∀ a ∈ args, Given P r names scope a) (hparams : ∀ p ∈ params, p.Of P r) :
    (checkArgs names scope args params).Keeps P r fun _ r' =>
      ∀ p ∈ args.zip params, Typed names p.1 p.2 r' := by
  induction args generalizing params r with
  | nil => exact keeps_pure hr (by simp)
  | cons a args ih =>
    cases params with
    | nil => exact keeps_pure hr (by simp)
    | cons p params =>
      rw [checkArgs_cons]
      simp only [List.forall_mem_cons] at hargs hground hgiven hparams
      refine (hargs.1 names scope p r hground.1 hr hgiven.1 hparams.1).bind
        fun _ r₁ hr₁ he₁ h₁ => ?_
      refine (ih hargs.2 hground.2 hr₁ (fun b hb => (hgiven.2 b hb).mono hP hr hr₁ he₁)
        fun q hq => (hparams.2 q hq).mono hP hr hr₁ he₁).mono fun _ r₂ _ he₂ h => ?_
      simp only [List.zip_cons_cons, List.forall_mem_cons]
      exact ⟨h₁.mono he₂, h⟩

/-- An application whose head and arguments are typed has the type that is left. -/
theorem typed_app {f a : Expr} {ft : Ty} {ps : List Ty × Ty}
    (hhead : Typed names (Expr.app f a).head ft r)
    (htake : ∀ θ : Assignment, θ.Models r.table → ∀ Γ g, HasType Γ g (θ.read ft) →
      (∀ p ∈ (Expr.app f a).args.zip ps.1, HasType Γ p.1 (θ.read p.2)) →
      HasType Γ (g.apps (Expr.app f a).args) (θ.read ps.2))
    (hargs : ∀ p ∈ (Expr.app f a).args.zip ps.1, Typed names p.1 p.2 r) :
    Typed names (.app f a) ps.2 r := by
  intro θ hmod
  have h := htake θ hmod _ _ (hhead θ hmod) fun p hp => hargs p hp θ hmod
  rwa [Expr.apps_head_args] at h

theorem synth_sound_step (hP : Ty.Stable P) (hPB : ∀ t, P t → t.Named B []) (e : Expr)
    (ih : ∀ e', e'.size < e.size → CheckSound P e' ∧ SynthSound P e') : SynthSound P e := by
  intro names scope r hground hr hg
  have hother : (e = .absent ∨ (∃ k, e = .unknown k) ∨ ∃ e', e = .ann e' .absent) →
      (synth names scope e).Keeps P r fun t r' => Typed names e t r' := by
    intro h
    rw [synth_other names scope h]
    exact (keeps_log hr _).bind fun _ r₁ hr₁ _ _ => keeps_throw hr₁
  cases e with
  | var x =>
    rw [synth_var]
    refine (keeps_log hr _).bind fun _ r₁ hr₁ _ _ => ?_
    split
    · rename_i t hx
      refine keeps_pure hr₁ fun θ _ => .var ?_
      rw [Names.assume, Names.lookup_of_find? hx]
      rfl
    · exact keeps_throw hr₁
    · exact keeps_throw hr₁
  | fn x body =>
    rw [synth_fn]
    refine (keeps_log hr _).bind fun _ r₁ hr₁ _ hlog => ?_
    have hg₁ := hg.agrees hlog
    refine (keeps_newMVar hr₁ hg₁.scope).bind fun p r₂ hr₂ he₂ hp => ?_
    have hg₂ := hg₁.mono hP hr₁ hr₂ he₂
    refine (keeps_newMVar hr₂ hg₂.scope).bind fun q r₃ hr₃ he₃ hq => ?_
    have hp₃ : (Ty.mvar p).Of P r₃ := Ty.of_mvar hP hr₃ (he₃.owns p hp.owned)
    refine ((ih body (by simp only [Expr.size]; omega)).1 _ _ _ r₃ hground hr₃
      ((hg₂.mono hP hr₂ hr₃ he₃).body hp₃) (Ty.of_mvar hP hr₃ hq.owned)).bind
      fun _ r₄ hr₄ _ hbody => ?_
    refine (keeps_newArrow hr₄ _ _).mono fun t r₅ _ he₅ ht θ hmod => ?_
    obtain ⟨⟨n, rfl⟩, -⟩ := ht
    have hty := hbody θ (hmod.of_extends he₅)
    rw [Names.assume_insert] at hty
    exact .abs (θ.closed_read _) hty
  | app f a =>
    rw [synth_app]
    refine (keeps_log hr _).bind fun _ r₁ hr₁ _ hlog => ?_
    have hg₁ := hg.agrees hlog
    refine ((synth_keeps hP hr₁ hg₁.head).and ((ih _ (Expr.size_head_lt f a)).2 names scope r₁
      hground.head hr₁ hg₁.head)).bind fun ft r₂ hr₂ he₂ hft => ?_
    have hg₂ := hg₁.mono hP hr₁ hr₂ he₂
    refine (keeps_solving ((takeAll_keeps hP _ hr₂ hg₂.scope hft.1).and
      (takeAll_sound hP hPB _ hr₂ hg₂.scope hft.1)) _).bind fun ps r₃ hr₃ he₃ hps => ?_
    have hg₃ := hg₂.mono hP hr₂ hr₃ he₃
    refine (checkArgs_sound hP (fun b hb => (ih b (Expr.size_lt_of_mem_args hb)).1)
      (fun b hb => hground.arg hb) hr₃ (fun b hb => hg₃.arg hb) hps.1.1).bind
      fun _ r₄ hr₄ he₄ hargs => ?_
    refine keeps_pure hr₄ (typed_app ((hft.2.mono he₃).mono he₄) ?_ hargs)
    exact fun θ hmod => hps.2 θ (hmod.of_extends he₄)
  | ann e' t =>
    by_cases ht : t = .absent
    · subst ht
      exact hother (.inr (.inr ⟨e', rfl⟩))
    · rw [synth_ann names scope e' ht]
      refine (keeps_log hr _).bind fun _ r₁ hr₁ _ hlog => ?_
      obtain ⟨hg₁, ht₁⟩ := (hg.agrees hlog).ann
      have hground' : e'.Every Ty.Ground := fun u hu => hground u (List.mem_cons_of_mem _ hu)
      refine ((ih e' (by simp only [Expr.size]; omega)).1 names scope t r₁ hground' hr₁ hg₁
        ht₁).bind fun _ r₂ hr₂ _ h => ?_
      refine keeps_pure hr₂ fun θ hmod => ?_
      have hty := h θ hmod
      rw [(hground t List.mem_cons_self).read] at hty ⊢
      exact .ann hty
  | unknown k => exact hother (.inr (.inl ⟨k, rfl⟩))
  | absent => exact hother (.inl rfl)

theorem check_sound_step (hP : Ty.Stable P) (hPB : ∀ t, P t → t.Named B []) (e : Expr)
    (hs : SynthSound P e) (ih : ∀ e', e'.size < e.size → CheckSound P e' ∧ SynthSound P e') :
    CheckSound P e := by
  intro names scope t r hground hr hg ht
  rw [check_eq]
  refine ((skolemize_keeps hP e hr hg.scope ht).and (skolemize_sound hP hPB hr hg ht)).bind
    fun ⟨scope, t'⟩ r₁ hr₁ he₁ hp => ?_
  obtain ⟨⟨hscope, ht₁⟩, hpass⟩ := hp
  have hg₁ : Given P r₁ names scope e := { hg.mono hP hr hr₁ he₁ with scope := hscope }
  -- It is enough that the expression has the type that is left.
  suffices h : (checkAt names scope e t').Keeps P r₁ fun _ r' => Typed names e t' r' from
    h.mono fun _ r₂ _ he₂ hty θ hmod => hpass θ (hmod.of_extends he₂) (hty θ hmod)
  have hsub : (do
      let found ← synth names scope e
      solving e (subsume scope found t') : Infer Unit).Keeps P r₁
        fun _ r' => Typed names e t' r' := by
    refine ((synth_keeps hP hr₁ hg₁).and (hs names scope r₁ hground hr₁ hg₁)).bind
      fun found r₂ hr₂ he₂ hf => ?_
    have hg₂ := hg₁.mono hP hr₁ hr₂ he₂
    refine (keeps_solving (subsume_sound hP hPB hr₂ hg₂ hf.1 (ht₁.mono hP hr₁ hr₂ he₂)) e).mono
      fun _ r₃ _ he₃ h θ hmod => ?_
    exact h θ hmod (hf.2.mono he₃ θ hmod)
  cases e with
  | fn x body =>
    cases t' with
    | arrow k p q =>
      obtain ⟨hp, hq⟩ := (Ty.of_arrow hP).1 ht₁
      refine ((ih body (by simp only [Expr.size]; omega)).1 _ _ _ r₁ hground hr₁ (hg₁.body hp)
        hq).mono fun _ r₂ _ _ h θ hmod => ?_
      have hty := h θ hmod
      rw [Names.assume_insert] at hty
      exact .abs (θ.closed_read p) hty
    | _ => exact hsub
  | app f a =>
    refine ((synth_keeps hP hr₁ hg₁.head).and ((ih _ (Expr.size_head_lt f a)).2 names scope r₁
      hground.head hr₁ hg₁.head)).bind fun ft r₂ hr₂ he₂ hft => ?_
    have hg₂ := hg₁.mono hP hr₁ hr₂ he₂
    refine (keeps_solving ((takeAll_keeps hP _ hr₂ hg₂.scope hft.1).and
      (takeAll_sound hP hPB _ hr₂ hg₂.scope hft.1)) _).bind fun ps r₃ hr₃ he₃ hps => ?_
    have hg₃ := hg₂.mono hP hr₂ hr₃ he₃
    have ht₃ := (ht₁.mono hP hr₁ hr₂ he₂).mono hP hr₂ hr₃ he₃
    refine (keeps_solving (subsume_sound hP hPB hr₃ hg₃ hps.1.2 ht₃) _).bind
      fun _ r₄ hr₄ he₄ hpass' => ?_
    have hg₄ := hg₃.mono hP hr₃ hr₄ he₄
    refine (checkArgs_sound hP (fun b hb => (ih b (Expr.size_lt_of_mem_args hb)).1)
      (fun b hb => hground.arg hb) hr₄ (fun b hb => hg₄.arg hb)
      fun p hp => (hps.1.1 p hp).mono hP hr₃ hr₄ he₄).mono fun _ r₅ _ he₅ hargs θ hmod => ?_
    have hhead := hft.2.mono (he₃.trans (he₄.trans he₅))
    refine hpass' θ (hmod.of_extends he₅) (typed_app hhead ?_ hargs θ hmod)
    exact fun θ hmod => hps.2 θ (hmod.of_extends (he₄.trans he₅))
  | _ => exact hsub

/-- **Checking and synthesis are sound** in every model of the table they leave. -/
theorem infer_sound_models (hP : Ty.Stable P) (hPB : ∀ t, P t → t.Named B []) (e : Expr) :
    CheckSound P e ∧ SynthSound P e :=
  infer_induction (synth_sound_step hP hPB) (check_sound_step hP hPB) e

/-! ## Names -/

namespace Ty

/-- The names that a type binds. -/
def binders : Ty → List String
  | .all _ x body => x :: body.binders
  | .arrow _ p q => p.binders ++ q.binders
  | .app _ f a => f.binders ++ a.binders
  | _ => []

/-- The names that are free in a type. -/
def freeNames : Ty → List String
  | .var x => [x]
  | .all _ x body => body.freeNames.filter (· ≠ x)
  | .arrow _ p q => p.freeNames ++ q.freeNames
  | .app _ f a => f.freeNames ++ a.freeNames
  | _ => []

theorem named_plain {t : Ty} {ctx : List String} (hb : ∀ x ∈ t.binders, B x)
    (hf : ∀ x ∈ t.freeNames, x ∈ ctx ∨ ¬ B x) : t.plain.Named B ctx := by
  induction t generalizing ctx with
  | var x => exact hf x (by simp [freeNames])
  | all n x body ih =>
    simp only [binders, List.forall_mem_cons] at hb
    refine ⟨hb.1, ih hb.2 fun y hy => ?_⟩
    by_cases hyx : y = x
    · simp [hyx]
    · have := hf y (by simp [freeNames, hy, hyx])
      simpa [hyx] using this
  | arrow n p q ihp ihq =>
    simp only [binders, freeNames, List.forall_mem_append] at hb hf
    exact ⟨ihp hb.1 hf.1, ihq hb.2 hf.2⟩
  | app n f a ihf iha =>
    simp only [binders, freeNames, List.forall_mem_append] at hb hf
    exact ⟨ihf hb.1 hf.1, iha hb.2 hf.2⟩
  | _ => trivial

/-- Types in which no free name can be captured are stable. -/
theorem stable_named (B : String → Prop) : Ty.Stable (Named B []) where
  mvar _ := trivial
  arrow := Iff.rfl
  app h := h
  atSkolem h _ := Named.replace (show Named B ([] ++ _) _ from h.2) fun _ => trivial
  atMVar h _ := Named.replace (show Named B ([] ++ _) _ from h.2) fun _ => trivial
  fill h hf := h.fill hf

end Ty

/-! ## Whole inferences -/

/-- The type is declared in the environment, where it can be seen, or annotated in the expression. -/
def Mentions (env : Env) (e : Expr) (t : Ty) : Prop := (∃ x, env.find? x = some t) ∨ t ∈ e.annotations

theorem Mentions.mem {env : Env} {t : Ty} (h : Mentions env e t) :
    t ∈ env.flatten.map (·.2) ++ e.annotations := by
  rcases h with ⟨x, hx⟩ | h
  · have hdecl : env.Every (· ∈ env.flatten.map (·.2)) := by
      refine Env.every_of_declared fun layer hl d hd => ?_
      exact List.mem_map_of_mem (List.mem_flatten_of_mem hl hd)
    exact List.mem_append_left _ (hdecl x t hx)
  · exact List.mem_append_right _ h

/-- **Soundness of inference.** In an environment and an expression with ground types, in which no
name is both bound and free, an expression has the type that is inferred for it, its unsolved
metavariables read as constants. -/
theorem infer_sound (c : Context) (hc : c.Ready) (e : Expr) (env : Env)
    (hground : ∀ t, Mentions env e t → t.Ground)
    (hnames : ∀ t u, Mentions env e t → Mentions env e u → ∀ x ∈ t.binders, x ∉ u.freeNames)
    (T : Ty) (c' : Context) (h : c.infer e env = (.ok T, c')) :
    HasType (fun x => (env.find? x).map Ty.nameless) e T.nameless := by
  set B : String → Prop := fun x => ∃ t, Mentions env e t ∧ x ∈ t.binders
  have hP := Ty.stable_named B
  have hPB : ∀ t : Ty, t.Named B [] → t.Named B [] := fun _ h => h
  have hgiven : ∀ t, Mentions env e t → t.Ground ∧ t.plain.Named B [] := by
    refine fun t ht => ⟨hground t ht, Ty.named_plain (fun x hx => ⟨t, ht, hx⟩) fun x hx => .inr ?_⟩
    rintro ⟨u, hu, hux⟩
    exact hnames u t hu ht x hux hx
  obtain ⟨t, r, hok, rfl, -⟩ := Context.infer_eq_ok h
  have hstart : (c.start e env).Valid (Ty.Named B []) := (hc.empty_start e env).valid
  have hg : Given (Ty.Named B []) (c.start e env) { env } .empty e :=
    given_of_ground (fun x t h => hgiven t (.inl ⟨x, h⟩)) (fun t h => hgiven t (.inr h)) _
  obtain ⟨hr, -, ht, htyped⟩ := ((synth_keeps hP hstart hg).and
    ((infer_sound_models hP hPB e).2 _ _ _ (fun t h => hground t (.inr h)) hstart hg)).of_ok hok
  -- In the model that leaves unsolved metavariables alone, types mean their expansions.
  have hty := htyped (Assignment.constant.through hr) (Assignment.models_through hr hPB)
  have hread : (Assignment.constant.through hr).read t = (prune t r).1.nameless := by
    rw [Assignment.read_through hr hPB ht.mem, ← (prune_spec hr.acyclic t).plain]
    exact Ty.read_plain _ _ _
  rwa [hread, Names.assume_declared fun x t hx => hground t (.inl ⟨x, hx⟩)] at hty

/-- A function that applies its polymorphic parameter to itself, applied to the identity and then to
a number, has the type that is inferred for it. -/
theorem infer_sound_of_self_application :
    let env : Env := [[("id", Ty.identity), ("one", .var "int")]]
    let twice : Expr := .ann (.fn "g" (.app (.var "g") (.var "g"))) (.arrow 5 Ty.identity Ty.identity)
    let e : Expr := .app (.app twice (.var "id")) (.var "one")
    (({} : Context).infer e env).1 = .ok (.var "int") ∧
      HasType (fun x => (env.find? x).map Ty.nameless) e (.const (.name "int")) := by
  intro env twice e
  have hinfer : (({} : Context).infer e env).1 = .ok (.var "int") := by decide +kernel
  have hground : ∀ t ∈ env.flatten.map (·.2) ++ e.annotations, t.Ground := by decide
  have hnames : ∀ t ∈ env.flatten.map (·.2) ++ e.annotations,
      ∀ u ∈ env.flatten.map (·.2) ++ e.annotations, ∀ x ∈ t.binders, x ∉ u.freeNames := by decide
  refine ⟨hinfer, ?_⟩
  exact infer_sound {} (.inr ⟨rfl, rfl, rfl⟩) e env (fun t ht => hground t ht.mem)
    (fun t u ht hu => hnames t ht.mem u hu.mem) (.var "int") (({} : Context).infer e env).2
    (Prod.ext hinfer rfl)

end RankN
