import RankN.Proofs.Constraints

/-!
# Principal types

In the rank-1 fragment inference finds exactly the simple types of an expression: it succeeds if there
are any, and they are the instances of the type it returns.

Each function of inference is shown to decide a constraint (`RankN.Proofs.Constraints`). Checking an
expression against a type decides that it has the type; synthesis decides that it has some instance of
the type that is returned. What else is to be known of these types is a parameter `F` of the statements,
which is how the constraints of later steps, on the remaining arguments for example, are carried along.

Nothing is ever guessed wrongly: opening a quantifier, or solving the type of an applied function by a
function type, adds metavariables that may still mean any simple type.

Main result: `infer_principal`.
-/

namespace RankN

open RankN.Action
open Nameless (Instance)
open Assignment (AgreeOn)

variable {r r' : Run} {θ : Assignment} {names : Names} {e : Expr} {t : Ty} {τ : Nameless}

/-! ## Types with quantifiers in front -/

/-- The type of a name: a simple type of the run, or a rank-1 type that was declared. -/
def Ty.Scheme (r : Run) (t : Ty) : Prop := t.Flat r ∨ t.Ground ∧ t.RankOne

/-- A rank-1 type of the run, some of whose quantifiers may have been opened. -/
structure Ty.Opening (r : Run) (t : Ty) : Prop where
  isOver : t.Over r
  rankOne : (r.table.expand t).RankOne
  uniform : t.Uniform r .empty

theorem Ty.Ground.expand (h : t.Ground) (r : Run) : r.table.expand t = t.plain :=
  Table.expand_of_unsolved fun m hm => (h.1 m hm).elim

theorem Ty.Ground.uniform (h : t.Ground) (r : Run) (s : Scope) : t.Uniform r s := by
  unfold Ty.Uniform
  rw [h.expand, Ty.leaves_plain]
  exact h.mono (fun _ => False.elim) fun _ => False.elim

theorem Ty.Ground.flat (h : t.Ground) (ht : t.Simple) (r : Run) : t.Flat r :=
  ⟨h.of (Ty.simple_plain.2 ht) r, h.uniform r .empty⟩

namespace Ty.Scheme

theorem mono (h : t.Scheme r) (hr : r.Valid Ty.Simple) (hr' : r'.Valid Ty.Simple)
    (he : r.Extends r') : t.Scheme r' := h.imp_left fun h => h.mono hr hr' he

theorem agrees (h : t.Scheme r) (ha : r.Agrees r') : t.Scheme r' := h.imp_left fun h => h.agrees ha

theorem opening (h : t.Scheme r) : t.Opening r := by
  rcases h with h | ⟨hg, ht⟩
  · exact ⟨h.of.isOver, h.of.mem.rankOne, h.uniform⟩
  · refine ⟨hg.mono (fun _ => False.elim) fun _ => False.elim, ?_, hg.uniform r .empty⟩
    rw [hg.expand]
    exact Ty.rankOne_plain.2 ht

theorem read_expand (h : t.Scheme r) (hr : r.Valid Ty.Simple) (hθ : θ.Models r.table) :
    θ.read (r.table.expand t) = θ.read t := by
  rcases h with h | ⟨hg, -⟩
  · exact h.read_expand hr hθ
  · rw [hg.expand]
    exact Ty.read_plain _ _ _

theorem ne_absent (h : t.Scheme r) : t ≠ .absent := by
  rintro rfl
  exact h.opening.rankOne

end Ty.Scheme

/-- A rank-1 type without quantifiers is simple. -/
theorem Ty.Opening.flat (h : t.Opening r) (hr : r.Valid Ty.Simple)
    (hne : ∀ n x body, t ≠ .all n x body) : t.Flat r := by
  refine ⟨⟨h.isOver, ?_⟩, h.uniform⟩
  have hrank := h.rankOne
  cases t with
  | all n x body => exact absurd rfl (hne n x body)
  | mvar m => exact (Ty.of_mvar Ty.stable_simple hr (by simpa [Ty.Over] using h.isOver)).mem
  | _ => exact hrank

/-- A simple type has one instance, which is what it means. -/
theorem Ty.Flat.instance_iff (h : t.Flat r) (hr : r.Valid Ty.Simple) (hθ : θ.Fulfils r) :
    Instance (θ.read t) τ ↔ θ.read t = τ := (h.mono_read hr hθ).instance_iff

theorem Ty.Flat.exists_instance_iff (h : t.Flat r) (hr : r.Valid Ty.Simple) (hθ : θ.Fulfils r)
    {p : Nameless → Prop} : (∃ τ, Instance (θ.read t) τ ∧ p τ) ↔ p (θ.read t) := by
  constructor
  · rintro ⟨τ, hτ, hp⟩
    rwa [(h.instance_iff hr hθ).1 hτ]
  · exact fun hp => ⟨_, (h.instance_iff hr hθ).2 rfl, hp⟩

section

variable {ε α : Type} {Q : α → Run → Prop} {G : α → Assignment → Prop}
  {F : Assignment → Nameless → Prop}

/-- **Opening a quantifier** at a new metavariable decides at which type it is instantiated. -/
theorem decides_open {n : Nat} {x : String} {body : Ty} {f : Ty → Action ε α}
    (hr : r.Valid Ty.Simple) (ho : (Ty.all n x body).Opening r) (hF : ∀ τ, Local r (F · τ))
    (h : ∀ t r', r'.Valid Ty.Simple → r.Extends r' → t.Opening r' →
      (f t).Decides r' (fun θ => ∃ τ, Instance (θ.read (r'.table.expand t)) τ ∧ F θ τ) Q G) :
    (do
      let m ← Run.newMVar .empty
      let t ← openAll x body (.mvar m)
      f t : Action ε α).Decides r
        (fun θ => ∃ τ, Instance (θ.read (r.table.expand (.all n x body))) τ ∧ F θ τ) Q G := by
  have hbody : (r.table.expand body).Over r :=
    hr.acyclic.leaves_expand_of (fun m t hm => (hr.solutions m t hm).isOver) ho.isOver
  have hlocal : ∀ A, Local r fun θ =>
      ∃ τ, Instance (((r.table.expand body).read θ.type [x]).instantiate 0 A) τ ∧ F θ τ := by
    rintro A θ θ' hag ⟨τ, hτ, h⟩
    rw [← hag.read hbody] at hτ
    exact ⟨τ, hτ, hF τ θ θ' hag h⟩
  refine ((decides_newMVar hr hlocal).congr fun θ _ => ?_).bind fun m r₁ hr₁ he₁ hadds => ?_
  · show (∃ τ, Instance (.all ((r.table.expand body).read θ.type [x])) τ ∧ F θ τ) ↔ _
    simp only [Nameless.instance_all_iff]
    constructor
    · rintro ⟨τ, ⟨A, hA, hτ⟩, h⟩
      exact ⟨A, hA, τ, hτ, h⟩
    · rintro ⟨A, hA, τ, hτ, h⟩
      exact ⟨τ, ⟨A, hA, hτ⟩, h⟩
  · have hag : r₁.Agrees (openAll x body (.mvar m) r₁).2 := (subst_restamped x (.mvar m) body r₁).agrees
    have hexp : r₁.table.expand (openAll x body (.mvar m) r₁).1 =
        (r.table.expand body).replace x (.mvar m) :=
      calc _ = (r₁.table.expand body).replace x (r₁.table.expand (.mvar m)) :=
            expand_subst hr₁.acyclic x (.mvar m) body
        _ = _ := by
            rw [Table.expand_unsolved hadds.unsolved, hr.acyclic.expand_congr hadds.solution]
    refine decides_agrees_bind hr₁ hag ?_
    refine (h _ _ (hag.valid hr₁) (he₁.trans hag.extends_) ⟨hag.extends_.isOver ?_, ?_, ?_⟩).congr
      fun θ hθ => ?_
    · exact leaves_subst (fun m t hm => (hr₁.solutions m t hm).isOver)
        (by simpa using hadds.owned) (he₁.isOver ho.isOver)
    · rw [hag.table, hexp]
      have hrank : (r.table.expand body).RankOne := ho.rankOne
      exact hrank.replace x m
    · unfold Ty.Uniform
      rw [hag.table, hexp]
      exact Ty.leaves_replace ho.uniform (by simp [hadds.scope])
    · rw [hag.table, hexp, Assignment.read, Ty.read_replace θ.closed (fun _ => rfl) (by simp)]
      rfl

end

/-! ## Subsumption -/

/-- **Subsumption** decides that the expected type is an instance of the given one. -/
theorem subsumeWithin_decides {F : Assignment → Prop} (n : Nat) {a b : Ty} (hr : r.Valid Ty.Simple)
    (ha : a.Opening r) (hb : b.Flat r) (hF : Local r F) :
    (subsumeWithin n .empty a b).Decides r
      (fun θ => ∃ τ, Instance (θ.read (r.table.expand a)) τ ∧ τ = θ.read b ∧ F θ)
      (fun _ _ => True) fun _ => F := by
  induction n generalizing a r with
  | zero =>
    rw [subsumeWithin]
    exact fun h => absurd rfl h
  | succ n ih =>
    have hlog := r.agrees_log (.subsume a b)
    have hr₁ := hlog.valid hr
    have hb₁ := hb.agrees hlog
    have ha₁ : a.Opening (Run.log (.subsume a b) r).2 :=
      ⟨hlog.extends_.isOver ha.isOver, by rw [hlog.table]; exact ha.rankOne,
        ha.uniform.of_table_eq hlog.table⟩
    rw [← hlog.table]
    refine ensures_subsumeWithin ?_ ?_ ?_
    · rintro k x t rfl
      exact absurd rfl (hb.ne_all k x t)
    · rintro k x t rfl
      refine Decides.after hlog hr (decides_open hr₁ ha₁ (fun τ θ θ' hag h => ?_)
        fun t' r₂ hr₂ he₂ ht' => ?_)
      · refine ⟨?_, hF θ θ' (hag.of_extends hlog.extends_) h.2⟩
        rw [h.1]
        exact (hag.read hb₁.of.isOver []).symm
      · exact ih hr₂ ht' (hb₁.mono hr₁ hr₂ he₂) ((hF.of_extends hlog.extends_).of_extends he₂)
    · intro _ hne
      have hflat := ha₁.flat hr₁ hne
      refine Decides.after hlog hr ((decides_unify hr₁ hflat hb₁).congr fun θ hθ => ?_)
      rw [hflat.read_expand hr₁ hθ.models, hflat.exists_instance_iff hr₁ hθ]

theorem subsume_decides {F : Assignment → Prop} {a b : Ty} (hr : r.Valid Ty.Simple)
    (ha : a.Scheme r) (hb : b.Flat r) (hF : Local r F) :
    (subsume .empty a b).Decides r (fun θ => Instance (θ.read a) (θ.read b) ∧ F θ)
      (fun _ _ => True) fun _ => F := by
  refine decides_get_bind ((subsumeWithin_decides _ hr ha.opening hb hF).congr fun θ hθ => ?_)
  simp only [ha.read_expand hr hθ.models]
  constructor
  · rintro ⟨h, hF⟩
    exact ⟨_, h, rfl, hF⟩
  · rintro ⟨τ, h, rfl, hF⟩
    exact ⟨h, hF⟩

/-! ## Parameters -/

section

variable {H : Assignment → Nameless → Nameless → Prop}

/-- An unsolved metavariable is a function type between any two simple types. -/
theorem exposeMVar_decides {m : MVar} (hr : r.Valid Ty.Simple) (ho : r.table.owns m)
    (hm : r.table.solution? m = none) (hs : m.scope = .empty) (hH : ∀ A B, Local r (H · A B)) :
    (exposeMVar m).Decides r (fun θ => ∃ A B, θ.type m = .arrow A B ∧ H θ A B)
      (fun ex r' => ex.param.Flat r' ∧ ex.rest.Flat r')
      fun ex θ => H θ (θ.read ex.param) (θ.read ex.rest) := by
  unfold exposeMVar
  rw [hs]
  have hlocal : ∀ A, Local r fun θ => ∃ B : Nameless, B.Mono ∧ θ.type m = .arrow A B ∧ H θ A B := by
    rintro A θ θ' hag ⟨B, hB, h, hAB⟩
    exact ⟨B, hB, (hag m ho).trans h, hH A B θ θ' hag hAB⟩
  refine ((decides_newMVar hr hlocal).congr fun θ hθ => ?_).bind fun p r₁ hr₁ he₁ hp => ?_
  · constructor
    · rintro ⟨A, B, h, hAB⟩
      have hmono : (Nameless.arrow A B).Mono := h ▸ hθ.mono m
      exact ⟨A, hmono.1, B, hmono.2, h, hAB⟩
    · rintro ⟨A, -, B, -, h, hAB⟩
      exact ⟨A, B, h, hAB⟩
  have hlocal₁ : ∀ B, Local r₁ fun θ => θ.type m = .arrow (θ.type p) B ∧ H θ (θ.type p) B := by
    rintro B θ θ' hag ⟨h, hAB⟩
    rw [hag p hp.owned, hag m (he₁.owns m ho)]
    exact ⟨h, (hH _ B).of_extends he₁ θ θ' hag hAB⟩
  refine (decides_newMVar hr₁ hlocal₁).bind fun q r₂ hr₂ he₂ hq => ?_
  have hag : r₂.Agrees (Run.newArrow (.mvar p) (.mvar q) r₂).2 := ⟨rfl, rfl, rfl⟩
  refine decides_agrees_bind hr₂ hag ?_
  have hm₂ : r₂.table.solution? m = none := by rw [hq.solution, hp.solution, hm]
  have hpflat := (Ty.flat_mvar hr₁ hp.owned hp.unsolved hp.scope).mono hr₁ hr₂ he₂
  have hqflat := Ty.flat_mvar hr₂ hq.owned hq.unsolved hq.scope
  have hocc : m ∉ (r₂.table.expand (.arrow r₂.stamps (.mvar p) (.mvar q))).mvars := by
    simp [hp.expand_arrow hq, hp.ne_of_owns ho, hq.ne_of_owns (he₁.owns m ho)]
  refine (decides_assign (F := fun θ => H θ (θ.type p) (θ.type q)) (hag.valid hr₂)
    (he₂.owns m (he₁.owns m ho)) hm₂ ((Ty.flat_arrow.2 ⟨hpflat, hqflat⟩).agrees hag) hocc hs).bind
    fun _ r₃ hr₃ he₃ _ => ?_
  have hext := hag.extends_.trans he₃
  exact decides_pure hr₃ ⟨hpflat.mono hr₂ hr₃ hext, hqflat.mono hr₂ hr₃ hext⟩ fun θ _ => Iff.rfl

/-- **Exposing a function type** decides that the type has a function type for an instance. -/
theorem exposeWithin_decides (args : List Expr) (n : Nat) (hr : r.Valid Ty.Simple)
    (ht : t.Opening r) (hH : ∀ A B, Local r (H · A B)) :
    (exposeWithin .empty args n t).Decides r
      (fun θ => ∃ τ, Instance (θ.read (r.table.expand t)) τ ∧ ∃ A B, τ = .arrow A B ∧ H θ A B)
      (fun ex r' => ex.param.Flat r' ∧ ex.rest.Flat r')
      fun ex θ => H θ (θ.read ex.param) (θ.read ex.rest) := by
  induction n generalizing t r with
  | zero =>
    rw [exposeWithin]
    exact fun h => absurd rfl h
  | succ n ih =>
    -- Without quantifiers in front, the type itself has to be a function type.
    have hflat : (∀ k x body, t ≠ .all k x body) → t.Flat r ∧ ∀ θ : Assignment, θ.Fulfils r →
        ((∃ τ, Instance (θ.read (r.table.expand t)) τ ∧ ∃ A B, τ = .arrow A B ∧ H θ A B) ↔
          ∃ A B, θ.read t = .arrow A B ∧ H θ A B) := by
      intro hne
      have hflat := ht.flat hr hne
      refine ⟨hflat, fun θ hθ => ?_⟩
      rw [hflat.read_expand hr hθ.models, hflat.exists_instance_iff hr hθ]
    refine ensures_exposeWithin ?_ ?_ ?_ ?_ ?_
    · rintro k x body rfl
      refine decides_open hr ht (fun τ θ θ' hag h => ?_) fun t' r₁ hr₁ he₁ ht' => ?_
      · obtain ⟨A, B, hτ, hAB⟩ := h
        exact ⟨A, B, hτ, hH A B θ θ' hag hAB⟩
      · exact ih hr₁ ht' fun A B => (hH A B).of_extends he₁
    · rintro k p q rfl
      obtain ⟨hpq, hiff⟩ := hflat (by simp)
      refine ⟨Run.Agrees.decided ⟨rfl, rfl, rfl⟩ hr fun θ hθ => (hiff θ hθ).trans ?_,
        Ty.flat_arrow.1 hpq⟩
      constructor
      · rintro ⟨A, B, h, hAB⟩
        cases h
        exact hAB
      · exact fun h => ⟨_, _, rfl, h⟩
    · rintro m u rfl hu
      have hsol := (hflat (by simp)).1.solution hr hu
      refine (ih hr ⟨hsol.of.isOver, hsol.of.mem.rankOne, hsol.uniform⟩ hH).congr fun θ _ => ?_
      rw [hr.acyclic.expand_solved hu]
    · rintro m rfl hm
      obtain ⟨hmflat, hiff⟩ := hflat (by simp)
      exact (exposeMVar_decides hr hmflat.of.owns hm ((Ty.uniform_unsolved hm).1 hmflat.uniform)
        hH).congr hiff
    · intro hall harrow hmvar _ θ hθ h
      obtain ⟨htflat, hiff⟩ := hflat hall
      obtain ⟨A, B, h, -⟩ := (hiff θ hθ).1 h
      have hsimple := htflat.of.mem
      cases t with
      | all k x body => exact hall k x body rfl
      | arrow k p q => exact harrow k p q rfl
      | mvar m => exact hmvar m rfl
      | var x => simp [Assignment.read] at h
      | app k f a => simp [Assignment.read] at h
      | _ => exact hsimple

theorem expose_decides (args : List Expr) (hr : r.Valid Ty.Simple) (ht : t.Scheme r)
    (hH : ∀ A B, Local r (H · A B)) :
    (expose .empty args t).Decides r (fun θ => ∃ A B, Instance (θ.read t) (.arrow A B) ∧ H θ A B)
      (fun ex r' => ex.param.Flat r' ∧ ex.rest.Flat r')
      fun ex θ => H θ (θ.read ex.param) (θ.read ex.rest) := by
  refine decides_get_bind ((exposeWithin_decides args _ hr ht.opening hH).congr fun θ hθ => ?_)
  simp only [ht.read_expand hr hθ.models]
  constructor
  · rintro ⟨A, B, h, hAB⟩
    exact ⟨_, h, A, B, rfl, hAB⟩
  · rintro ⟨τ, h, A, B, rfl, hAB⟩
    exact ⟨A, B, h, hAB⟩

end

/-- **Taking parameters** decides that the type has an instance with so many parameters. -/
theorem takeAll_decides {H : Assignment → List Nameless → Nameless → Prop} (args : List Expr)
    (hr : r.Valid Ty.Simple) (ht : t.Scheme r) (hH : ∀ As τ, Local r (H · As τ)) :
    (Parameters.takeAll .empty t args).Decides r
      (fun θ => ∃ As τ, As.length = args.length ∧ Instance (θ.read t) (Nameless.arrows As τ) ∧
        H θ As τ)
      (fun ps r' => ps.1.length = args.length ∧ (∀ p ∈ ps.1, p.Flat r') ∧ ps.2.Scheme r')
      fun ps θ => ∃ τ, Instance (θ.read ps.2) τ ∧ H θ (ps.1.map θ.read) τ := by
  induction args generalizing t r H with
  | nil =>
    rw [Parameters.takeAll_nil]
    refine decides_pure hr ⟨rfl, by simp, ht⟩ fun θ _ => ?_
    constructor
    · rintro ⟨As, τ, hlen, h⟩
      rw [List.length_eq_zero_iff.1 hlen] at h
      exact ⟨τ, h⟩
    · rintro ⟨τ, h⟩
      exact ⟨[], τ, rfl, h⟩
  | cons arg args ih =>
    rw [Parameters.takeAll_cons]
    have hlocal : ∀ A B, Local r fun θ =>
        ∃ As τ, As.length = args.length ∧ B = Nameless.arrows As τ ∧ H θ (A :: As) τ := by
      rintro A B θ θ' hag ⟨As, τ, hlen, hB, h⟩
      exact ⟨As, τ, hlen, hB, hH _ τ θ θ' hag h⟩
    refine ((expose_decides _ hr ht hlocal).congr fun θ _ => ?_).bind fun ex r₁ hr₁ he₁ hex => ?_
    · constructor
      · rintro ⟨As, τ, hlen, hτ, h⟩
        obtain ⟨A, As, rfl⟩ := List.exists_of_length_succ As hlen
        exact ⟨A, _, hτ, As, τ, by simpa using hlen, rfl, h⟩
      · rintro ⟨A, B, hτ, As, τ, hlen, rfl, h⟩
        exact ⟨A :: As, τ, by simpa using hlen, hτ, h⟩
    have hlocal₁ : ∀ As τ, Local r₁ fun θ => H θ (θ.read ex.param :: As) τ := by
      intro As τ θ θ' hag h
      show H θ' (θ'.read ex.param :: As) τ
      rw [show θ'.read ex.param = θ.read ex.param from hag.read hex.1.of.isOver []]
      exact (hH _ τ).of_extends he₁ θ θ' hag h
    refine ((ih hr₁ (.inl hex.2) hlocal₁).congr fun θ hθ => ?_).bind fun ps r₂ hr₂ he₂ hps => ?_
    · simp only [hex.2.instance_iff hr₁ hθ]
    · refine decides_pure hr₂ ⟨?_, ?_, hps.2.2⟩ fun θ _ => Iff.rfl
      · rw [List.length_cons, List.length_cons, hps.1]
      · exact List.forall_mem_cons.2 ⟨hex.1.mono hr₁ hr₂ he₂, hps.2.1⟩

/-! ## Expected types -/

/-- Expecting a simple type only follows solutions. -/
theorem skolemizeWithin_decides {C : Assignment → Prop} (n : Nat) (hr : r.Valid Ty.Simple)
    (ht : t.Flat r) :
    (skolemizeWithin e n .empty t).Decides r C
      (fun p r' => p.1 = .empty ∧ p.2.Flat r' ∧
        ∀ θ : Assignment, θ.Fulfils r → θ.read p.2 = θ.read t)
      fun _ => C := by
  induction n generalizing t r with
  | zero =>
    rw [skolemizeWithin_zero]
    exact fun h => absurd rfl h
  | succ n ih =>
    have hlog := r.agrees_log (.check e t)
    have hr₁ := hlog.valid hr
    refine ensures_skolemizeWithin ?_ ?_ ?_
    · rintro m u rfl hu
      refine (Decides.after hlog hr (ih hr₁ ((ht.solution hr hu).agrees hlog))).mono ?_ fun _ _ h => h
      rintro p r' ⟨hdec, hp, hflat, hread⟩
      refine ⟨hdec, hp, hflat, fun θ hθ => ?_⟩
      rw [hread θ (hθ.agrees hlog), ← hθ.models m u hu]
      rfl
    · rintro k x body rfl
      exact absurd rfl (ht.ne_all k x body)
    · intro _ _
      exact ⟨hlog.decided hr fun _ _ => Iff.rfl, rfl, ht.agrees hlog, fun _ _ => rfl⟩

theorem skolemize_decides {C : Assignment → Prop} (hr : r.Valid Ty.Simple) (ht : t.Flat r) :
    (skolemize e .empty t).Decides r C
      (fun p r' => p.1 = .empty ∧ p.2.Flat r' ∧
        ∀ θ : Assignment, θ.Fulfils r → θ.read p.2 = θ.read t)
      fun _ => C := decides_get_bind (skolemizeWithin_decides _ hr ht)

/-! ## Inference -/

theorem Names.Every.isOver (h : names.Every (·.Scheme r)) : names.Every (·.Over r) :=
  h.mono fun _ h => h.opening.isOver

/-- Checking an expression decides that it has the type. -/
def CheckDecides (e : Expr) : Prop :=
  ∀ (names : Names) (t : Ty) (r : Run) (F : Assignment → Prop), r.Valid Ty.Simple →
    names.Every (·.Scheme r) → e.Simple → t.Flat r → Local r F →
    (check names .empty e t).Decides r (fun θ => Simply (names.assume θ) e (θ.read t) ∧ F θ)
      (fun _ _ => True) fun _ => F

/-- Synthesis decides that the expression has an instance of the type that is returned. -/
def SynthDecides (e : Expr) : Prop :=
  ∀ (names : Names) (r : Run) (F : Assignment → Nameless → Prop), r.Valid Ty.Simple →
    names.Every (·.Scheme r) → e.Simple → (∀ τ, Local r (F · τ)) →
    (synth names .empty e).Decides r (fun θ => ∃ τ, Simply (names.assume θ) e τ ∧ F θ τ)
      (fun t r' => t.Scheme r') fun t θ => ∃ τ, Instance (θ.read t) τ ∧ F θ τ

theorem Local.args {F : Assignment → Prop} {params : List Ty} (hF : Local r F) (args : List Expr)
    (hn : names.Every (·.Scheme r)) (hparams : ∀ p ∈ params, p.Flat r) :
    Local r fun θ => List.Forall₂ (Simply (names.assume θ)) args (params.map θ.read) ∧ F θ := by
  rintro θ θ' hag ⟨h, hFθ⟩
  have hread : params.map θ'.read = params.map θ.read :=
    List.map_congr_left fun p hp => hag.read (hparams p hp).of.isOver []
  rw [hag.assume hn.isOver, hread]
  exact ⟨h, hF θ θ' hag hFθ⟩

theorem checkArgs_decides {F : Assignment → Prop} {args : List Expr} {params : List Ty}
    (hargs : ∀ a ∈ args, CheckDecides a) (hr : r.Valid Ty.Simple)
    (hn : names.Every (·.Scheme r)) (hsimple : ∀ a ∈ args, a.Simple)
    (hparams : ∀ p ∈ params, p.Flat r) (hlen : params.length = args.length) (hF : Local r F) :
    (checkArgs names .empty args params).Decides r
      (fun θ => List.Forall₂ (Simply (names.assume θ)) args (params.map θ.read) ∧ F θ)
      (fun _ _ => True) fun _ => F := by
  induction args generalizing params r with
  | nil =>
    rw [List.length_eq_zero_iff.1 hlen]
    exact decides_pure hr trivial fun θ _ => by simp
  | cons a args ih =>
    obtain ⟨p, params, rfl⟩ := List.exists_of_length_succ params hlen
    simp only [List.forall_mem_cons] at hargs hsimple hparams
    rw [checkArgs_cons]
    refine ((hargs.1 names p r _ hr hn hsimple.1 hparams.1 (hF.args args hn hparams.2)).congr
      fun θ _ => ?_).bind fun _ r₁ hr₁ he₁ _ => ?_
    · rw [List.map_cons, List.forall₂_cons, and_assoc]
    · exact ih hargs.2 hr₁ (hn.mono fun _ h => h.mono hr hr₁ he₁) hsimple.2
        (fun q hq => (hparams.2 q hq).mono hr hr₁ he₁) (by simpa using hlen) (hF.of_extends he₁)

/-- **An application** has some type if its head has a type with parameters for its arguments. -/
theorem decides_spine {α : Type} {H : Assignment → Nameless → Prop} {Q : α → Run → Prop}
    {G : α → Assignment → Prop} {f : List Ty × Ty → Infer α} (hhead : SynthDecides e.head)
    (hr : r.Valid Ty.Simple) (hn : names.Every (·.Scheme r)) (he : e.Simple)
    (hH : ∀ τ, Local r (H · τ))
    (h : ∀ ps r', r'.Valid Ty.Simple → r.Extends r' → ps.1.length = e.args.length →
      (∀ p ∈ ps.1, p.Flat r') → ps.2.Scheme r' →
      (f ps).Decides r' (fun θ => ∃ τ, Instance (θ.read ps.2) τ ∧
        List.Forall₂ (Simply (names.assume θ)) e.args (ps.1.map θ.read) ∧ H θ τ) Q G) :
    (do
      let ft ← synth names .empty e.head
      let ps ← solving e (Parameters.takeAll .empty ft e.args)
      f ps : Infer α).Decides r (fun θ => ∃ τ, Simply (names.assume θ) e τ ∧ H θ τ) Q G := by
  have hlocal : ∀ σ, Local r fun θ => ∃ As τ, σ = Nameless.arrows As τ ∧
      List.Forall₂ (Simply (names.assume θ)) e.args As ∧ H θ τ := by
    rintro σ θ θ' hag ⟨As, τ, hσ, hargs, hτ⟩
    rw [← hag.assume hn.isOver] at hargs
    exact ⟨As, τ, hσ, hargs, hH τ θ θ' hag hτ⟩
  refine ((hhead names r _ hr hn he.head hlocal).congr fun θ _ => ?_).bind
    fun ft r₁ hr₁ he₁ hft => ?_
  · constructor
    · rintro ⟨τ, hτ, h⟩
      rw [← e.apps_head_args] at hτ
      obtain ⟨As, hargs, hhd⟩ := simply_apps.1 hτ
      exact ⟨_, hhd, As, τ, rfl, hargs, h⟩
    · rintro ⟨σ, hhd, As, τ, rfl, hargs, h⟩
      refine ⟨τ, ?_, h⟩
      rw [← e.apps_head_args]
      exact simply_apps.2 ⟨As, hargs, hhd⟩
  have hn₁ : names.Every (·.Scheme r₁) := hn.mono fun _ h => h.mono hr hr₁ he₁
  have hlocal₁ : ∀ As τ, Local r₁ fun θ =>
      List.Forall₂ (Simply (names.assume θ)) e.args As ∧ H θ τ := by
    rintro As τ θ θ' hag ⟨hargs, hτ⟩
    rw [← hag.assume hn₁.isOver] at hargs
    exact ⟨hargs, (hH τ).of_extends he₁ θ θ' hag hτ⟩
  refine ((decides_solving (takeAll_decides e.args hr₁ hft hlocal₁)).congr fun θ _ => ?_).bind
    fun ps r₂ hr₂ he₂ hps => h ps r₂ hr₂ (he₁.trans he₂) hps.1 hps.2.1 hps.2.2
  constructor
  · rintro ⟨σ, hσ, As, τ, rfl, hargs, hτ⟩
    exact ⟨As, τ, hargs.length_eq.symm, hσ, hargs, hτ⟩
  · rintro ⟨As, τ, -, hσ, hargs, hτ⟩
    exact ⟨_, hσ, As, τ, rfl, hargs, hτ⟩

/-- **A function** has a function type: its parameter may have any simple type for which the body
has one. -/
theorem decides_fn {F : Assignment → Nameless → Prop} {x : String} {body : Expr}
    (hbody : CheckDecides body) (hr : r.Valid Ty.Simple) (hn : names.Every (·.Scheme r))
    (he : body.Simple) (hF : ∀ τ, Local r (F · τ)) :
    (do
      let p ← Run.newMVar .empty
      let q ← Run.newMVar .empty
      check (names.insert x (.mvar p)) .empty body (.mvar q)
      Run.newArrow (.mvar p) (.mvar q) : Infer Ty).Decides r
        (fun θ => ∃ τ, Simply (names.assume θ) (.fn x body) τ ∧ F θ τ)
        (fun t r' => t.Scheme r') fun t θ => ∃ τ, Instance (θ.read t) τ ∧ F θ τ := by
  have hlocal : ∀ A, Local r fun θ => ∃ B : Nameless, B.Mono ∧
      Simply (Function.update (names.assume θ) x (some A)) body B ∧ F θ (.arrow A B) := by
    rintro A θ θ' hag ⟨B, hB, h, hFθ⟩
    rw [← hag.assume hn.isOver] at h
    exact ⟨B, hB, h, hF _ θ θ' hag hFθ⟩
  refine ((decides_newMVar hr hlocal).congr fun θ _ => ?_).bind fun p r₁ hr₁ he₁ hp => ?_
  · constructor
    · rintro ⟨τ, hτ, hFθ⟩
      obtain ⟨A, B, rfl, hA, hbody⟩ := simply_fn.1 hτ
      exact ⟨A, hA, B, hbody.mono, hbody, hFθ⟩
    · rintro ⟨A, hA, B, -, hbody, hFθ⟩
      exact ⟨_, .abs hA hbody, hFθ⟩
  have hn₁ : names.Every (·.Scheme r₁) := hn.mono fun _ h => h.mono hr hr₁ he₁
  have hlocal₁ : ∀ B, Local r₁ fun θ =>
      Simply (Function.update (names.assume θ) x (some (θ.type p))) body B ∧
        F θ (.arrow (θ.type p) B) := by
    rintro B θ θ' hag ⟨h, hFθ⟩
    rw [hag.assume hn₁.isOver, hag p hp.owned]
    exact ⟨h, (hF _).of_extends he₁ θ θ' hag hFθ⟩
  refine (decides_newMVar hr₁ hlocal₁).bind fun q r₂ hr₂ he₂ hq => ?_
  have hpflat := (Ty.flat_mvar hr₁ hp.owned hp.unsolved hp.scope).mono hr₁ hr₂ he₂
  have hqflat := Ty.flat_mvar hr₂ hq.owned hq.unsolved hq.scope
  have hn₂ : (names.insert x (.mvar p)).Every (·.Scheme r₂) :=
    (hn₁.mono fun _ h => h.mono hr₁ hr₂ he₂).insert x (.inl hpflat)
  have hlocal₂ : Local r₂ fun θ => F θ (.arrow (θ.type p) (θ.type q)) := by
    intro θ θ' hag hFθ
    show F θ' (.arrow (θ'.type p) (θ'.type q))
    rw [hag p hpflat.of.owns, hag q hq.owned]
    exact (hF _).of_extends (he₁.trans he₂) θ θ' hag hFθ
  refine ((hbody _ _ r₂ _ hr₂ hn₂ he hqflat hlocal₂).congr fun θ _ => ?_).bind
    fun _ r₃ hr₃ he₃ _ => ?_
  · rw [Names.assume_insert]
    rfl
  · have hag : r₃.Agrees (Run.newArrow (.mvar p) (.mvar q) r₃).2 := ⟨rfl, rfl, rfl⟩
    have harrow : (Ty.arrow r₃.stamps (.mvar p) (.mvar q)).Flat r₃ :=
      Ty.flat_arrow.2 ⟨hpflat.mono hr₂ hr₃ he₃, hqflat.mono hr₂ hr₃ he₃⟩
    refine ensures_lift.2 ⟨hag.decided hr₃ fun θ hθ => ?_, .inl (harrow.agrees hag)⟩
    exact (harrow.exists_instance_iff hr₃ hθ).symm

theorem synth_decides_step (e : Expr)
    (ih : ∀ e', e'.size < e.size → CheckDecides e' ∧ SynthDecides e') : SynthDecides e := by
  intro names r F hr hn he hF
  have hlog := r.agrees_log (.synth e)
  have hr₁ := hlog.valid hr
  have hn₁ : names.Every (·.Scheme (Run.log (.synth e) r).2) := hn.mono fun _ h => h.agrees hlog
  have hF₁ := fun τ => (hF τ).of_extends hlog.extends_
  cases e with
  | var x =>
    rw [synth_var]
    refine decides_agrees_bind hr hlog ?_
    rw [Names.find?_eq (hn.mono fun _ h => h.ne_absent)]
    cases hx : names.lookup x with
    | none =>
      refine decides_throw fun θ _ h => ?_
      obtain ⟨τ, hτ, -⟩ := h
      obtain ⟨A, hA, -⟩ := simply_var.1 hτ
      simp [Names.assume, hx] at hA
    | some t =>
      refine decides_pure hr₁ (hn₁.lookup hx) fun θ _ => ?_
      simp [simply_var, Names.assume, hx]
  | fn x body =>
    rw [synth_fn]
    refine decides_agrees_bind hr hlog ?_
    exact decides_fn (ih body (by simp only [Expr.size]; omega)).1 hr₁ hn₁ he hF₁
  | app f a =>
    rw [synth_app]
    refine decides_agrees_bind hr hlog ?_
    refine decides_spine (ih _ (Expr.size_head_lt f a)).2 hr₁ hn₁ he hF₁
      fun ps r₂ hr₂ he₂ hlen hparams hres => ?_
    have hlocal : Local r₂ fun θ => ∃ τ, Instance (θ.read ps.2) τ ∧ F θ τ := by
      rintro θ θ' hag ⟨τ, hτ, hFθ⟩
      refine ⟨τ, ?_, (hF₁ τ).of_extends he₂ θ θ' hag hFθ⟩
      rwa [show θ'.read ps.2 = θ.read ps.2 from hag.read hres.opening.isOver []]
    refine ((checkArgs_decides (fun b hb => (ih b (Expr.size_lt_of_mem_args hb)).1) hr₂
      (hn₁.mono fun _ h => h.mono hr₁ hr₂ he₂) (fun b hb => he.arg hb) hparams hlen
      hlocal).congr fun θ _ => ?_).bind fun _ r₃ hr₃ he₃ _ => ?_
    · grind
    · exact decides_pure hr₃ (hres.mono hr₂ hr₃ he₃) fun θ _ => Iff.rfl
  | ann e' t =>
    obtain ⟨he', hsimple, hground⟩ := he
    have hne : t ≠ .absent := by
      rintro rfl
      exact hsimple
    rw [synth_ann names .empty e' hne]
    refine decides_agrees_bind hr hlog ?_
    have hflat := hground.flat hsimple
    refine (((ih e' (by simp only [Expr.size]; omega)).1 names t _ _ hr₁ hn₁ he' (hflat _)
      (hF₁ t.nameless)).congr fun θ _ => ?_).bind fun _ r₂ hr₂ _ _ => ?_
    · rw [hground.read]
      constructor
      · rintro ⟨τ, hτ, hFθ⟩
        obtain ⟨rfl, h⟩ := simply_ann.1 hτ
        exact ⟨h, hFθ⟩
      · rintro ⟨h, hFθ⟩
        exact ⟨_, .ann h, hFθ⟩
    · refine decides_pure hr₂ (.inl (hflat r₂)) fun θ hθ => ?_
      rw [(hflat r₂).exists_instance_iff hr₂ hθ, hground.read]
  | unknown k => exact he.elim
  | absent => exact he.elim

theorem check_decides_step (e : Expr) (hs : SynthDecides e)
    (ih : ∀ e', e'.size < e.size → CheckDecides e' ∧ SynthDecides e') : CheckDecides e := by
  intro names t r F hr hn he ht hF
  rw [check_eq]
  refine (skolemize_decides hr ht).bind fun ⟨scope, t'⟩ r₁ hr₁ he₁ hp => ?_
  obtain ⟨rfl, ht', hread⟩ := hp
  have hn₁ : names.Every (·.Scheme r₁) := hn.mono fun _ h => h.mono hr hr₁ he₁
  have hF₁ := hF.of_extends he₁
  refine Decides.congr (C := fun θ => Simply (names.assume θ) e (θ.read t') ∧ F θ) ?_ fun θ hθ => by
    rw [hread θ (hθ.of_extends he₁)]
  -- The type that is found has to have the expected one for an instance.
  have hlocal : ∀ τ, Local r₁ fun θ => τ = θ.read t' ∧ F θ := by
    rintro τ θ θ' hag ⟨rfl, hFθ⟩
    exact ⟨(hag.read ht'.of.isOver []).symm, hF₁ θ θ' hag hFθ⟩
  have hcongr : ∀ {e' : Expr} (θ : Assignment),
      Simply (names.assume θ) e' (θ.read t') ∧ F θ ↔
        ∃ τ, Simply (names.assume θ) e' τ ∧ τ = θ.read t' ∧ F θ := by
    intro e' θ
    constructor
    · exact fun h => ⟨_, h.1, rfl, h.2⟩
    · rintro ⟨τ, h, rfl, hFθ⟩
      exact ⟨h, hFθ⟩
  have hsub : (do
      let found ← synth names .empty e
      solving e (subsume .empty found t') : Infer Unit).Decides r₁
        (fun θ => Simply (names.assume θ) e (θ.read t') ∧ F θ) (fun _ _ => True) fun _ => F := by
    refine ((hs names r₁ _ hr₁ hn₁ he hlocal).congr fun θ _ => hcongr θ).bind
      fun found r₂ hr₂ he₂ hfound => ?_
    refine decides_solving ((subsume_decides hr₂ hfound (ht'.mono hr₁ hr₂ he₂)
      (hF₁.of_extends he₂)).congr fun θ _ => ?_)
    constructor
    · rintro ⟨τ, h, rfl, hFθ⟩
      exact ⟨h, hFθ⟩
    · exact fun h => ⟨_, h.1, rfl, h.2⟩
  cases e with
  | fn x body =>
    cases t' with
    | arrow k p q =>
      obtain ⟨hp, hq⟩ := Ty.flat_arrow.1 ht'
      refine ((ih body (by simp only [Expr.size]; omega)).1 _ q r₁ F hr₁ (hn₁.insert x (.inl hp)) he hq
        hF₁).congr fun θ hθ => and_congr_left fun _ => ?_
      rw [Names.assume_insert, simply_fn]
      constructor
      · rintro ⟨A, B, hAB, -, h⟩
        cases hAB
        exact h
      · exact fun h => ⟨_, _, rfl, hp.mono_read hr₁ hθ, h⟩
    | _ => exact hsub
  | app f a =>
    refine (decides_spine (ih _ (Expr.size_head_lt f a)).2 hr₁ hn₁ he hlocal
      fun ps r₂ hr₂ he₂ hlen hparams hres => ?_).congr fun θ _ => hcongr θ
    have hn₂ : names.Every (·.Scheme r₂) := hn₁.mono fun _ h => h.mono hr₁ hr₂ he₂
    have hlocal₂ := (hF₁.of_extends he₂).args (Expr.app f a).args hn₂ hparams
    refine (decides_solving ((subsume_decides hr₂ hres (ht'.mono hr₁ hr₂ he₂)
      hlocal₂).congr fun θ _ => ?_)).bind fun _ r₃ hr₃ he₃ _ => ?_
    · constructor
      · rintro ⟨τ, h, hargs, rfl, hFθ⟩
        exact ⟨h, hargs, hFθ⟩
      · exact fun h => ⟨_, h.1, h.2.1, rfl, h.2.2⟩
    · exact checkArgs_decides (fun b hb => (ih b (Expr.size_lt_of_mem_args hb)).1) hr₃
        (hn₂.mono fun _ h => h.mono hr₂ hr₃ he₃) (fun b hb => he.arg hb)
        (fun p hp => (hparams p hp).mono hr₂ hr₃ he₃) hlen (hF₁.of_extends (he₂.trans he₃))
  | _ => exact hsub

/-- **Inference decides typability** in the rank-1 fragment. -/
theorem infer_decides (e : Expr) : CheckDecides e ∧ SynthDecides e :=
  infer_induction synth_decides_step check_decides_step e

/-! ## Whole inferences -/

/-- **Answers.** What a type means in simple models is what its pruned form becomes when simple types
are put for its metavariables. -/
theorem Ty.Scheme.exists_instance_iff (hr : r.Valid Ty.Simple) (ht : t.Scheme r) :
    (∃ θ : Assignment, θ.Fulfils r ∧ Instance (θ.read t) τ) ↔
      ∃ σ : MVar → Nameless, (∀ m, (σ m).Mono) ∧ Instance ((prune t r).1.read σ []) τ := by
  have hprune : ∀ σ, (prune t r).1.read σ [] = (r.table.expand t).read σ [] := by
    intro σ
    rw [← (prune_spec hr.acyclic t).plain, Ty.read_plain]
  constructor
  · rintro ⟨θ, hθ, h⟩
    refine ⟨θ.type, hθ.mono, ?_⟩
    rw [hprune]
    rwa [← ht.read_expand hr hθ.models] at h
  · rintro ⟨σ, hσ, h⟩
    have hmono : ∀ m, (((Assignment.ofMono σ hσ).through hr).type m).Mono := by
      intro m
      cases hm : r.table.solution? m with
      | none =>
        rw [Assignment.through_unsolved hr hm]
        exact hσ m
      | some u =>
        show ((r.table.expand (.mvar m)).read σ []).Mono
        rw [hr.acyclic.expand_solved hm]
        exact (hr.solutions m u hm).mem.mono_read hσ
    have hmodels : ((Assignment.ofMono σ hσ).through hr).Models r.table :=
      Assignment.models_through hr fun _ => Ty.Simple.named
    refine ⟨_, ⟨hmono, hmodels⟩, ?_⟩
    rw [← ht.read_expand hr hmodels]
    rw [hprune] at h
    -- The metavariables of the expansion are unsolved, so they mean what `σ` says.
    rwa [Assignment.read, Ty.read_congr fun m hm =>
      Assignment.through_unsolved hr (hr.acyclic.unsolved_of_mem_expand hm)]

/-- In an empty run, the simple types of an expression are the instances that the type synthesized
for it has in simple models; and if none is synthesized, there are none. -/
theorem synth_principal {env : Env} (hr : r.Empty) (he : e.Simple)
    (henv : env.Every fun t => t.Ground ∧ t.RankOne) (τ : Nameless) :
    (synth { env } .empty e).Ensures r
      (fun t r' => r'.Valid Ty.Simple ∧ t.Scheme r' ∧
        (Simply (fun x => (env.find? x).map Ty.nameless) e τ ↔
          ∃ θ : Assignment, θ.Fulfils r' ∧ Instance (θ.read t) τ))
      fun _ _ => ¬ Simply (fun x => (env.find? x).map Ty.nameless) e τ := by
  have hassume := Names.assume_declared fun x t hx => (henv x t hx).1
  have hnames : ({ env } : Names).Every (·.Scheme r) :=
    ⟨fun x t h => by simp [Layer.find?] at h, fun x t h => .inr (henv x t h)⟩
  have hgiven : Given Ty.Any r { env } .empty e :=
    given_of_ground (fun x t h => ⟨(henv x t h).1, trivial⟩) (fun t h => ⟨he.ground t h, trivial⟩) r
  -- Every assignment is a model of an empty run.
  obtain ⟨θ₀, hθ₀⟩ : ∃ θ : Assignment, θ.Fulfils r :=
    ⟨.ofMono (fun _ => .const (.name "")) fun _ => trivial, fun _ => trivial, fun m t hm => by
      simp [hr.table] at hm⟩
  have hdec := (infer_decides e).2 { env } r (fun _ σ => σ = τ) hr.valid hnames he
    fun _ _ _ _ h => h
  have hvalid : r.Valid Ty.Any := hr.valid
  have hevolves := (infer_evolves e).2 { env } .empty r hvalid.inOrder
    (hgiven.names.mono fun _ ht => ht.isOver.passed hvalid)
    (hgiven.expr.mono fun _ ht => ht.isOver.passed hvalid)
  refine (Ensures.and hdec hevolves).mono ?_ ?_
  · rintro t r' ⟨⟨hd, ht⟩, -⟩
    refine ⟨hd.valid, ht, fun h => ?_, ?_⟩
    · rw [← hassume θ₀] at h
      obtain ⟨θ, hθ, -, _, hτ, rfl⟩ := hd.complete θ₀ hθ₀ ⟨τ, h, rfl⟩
      exact ⟨θ, hθ, hτ⟩
    · rintro ⟨θ, hθ, hτ⟩
      obtain ⟨_, h, rfl⟩ := hd.sound θ hθ ⟨τ, hτ, rfl⟩
      rwa [hassume θ] at h
  · rintro stop _ ⟨hrefutes, -, hstop⟩ h
    rw [← hassume θ₀] at h
    exact hrefutes hstop θ₀ hθ₀ ⟨τ, h, rfl⟩

/-- **Principal types.** In an environment of rank-1 types, inference succeeds on an expression of
the fragment if and only if it has a simple type. Its simple types are then the instances of the type
that is inferred, with any simple types for the metavariables in it, which are all unsolved. -/
theorem infer_principal (c : Context) (hc : c.Ready) (e : Expr) (he : e.Simple) (env : Env)
    (henv : env ≠ []) (htypes : env.Every fun t => t.Ground ∧ t.RankOne) :
    let Γ : Assumptions := fun x => (env.find? x).map Ty.nameless
    ((∃ T, (c.infer e env).1 = .ok T) ↔ ∃ τ, Simply Γ e τ) ∧
      ∀ T, (c.infer e env).1 = .ok T →
        (∀ m ∈ T.mvars, (c.infer e env).2.run.table.solution? m = none) ∧
        ∀ τ, Simply Γ e τ ↔
          ∃ σ : MVar → Nameless, (∀ m, (σ m).Mono) ∧ Instance (T.read σ []) τ := by
  intro Γ
  have hsynth := synth_principal (hc.empty_start e env) he htypes
  -- The answer, if there is one, is the pruned type that is synthesized.
  have hanswer : ∀ T, (c.infer e env).1 = .ok T → T.RankOne ∧
      (∀ m ∈ T.mvars, (c.infer e env).2.run.table.solution? m = none) ∧
      ∀ τ, Simply Γ e τ ↔
        ∃ σ : MVar → Nameless, (∀ m, (σ m).Mono) ∧ Instance (T.read σ []) τ := by
    intro T hT
    have hinfer : c.infer e env = (.ok T, (c.infer e env).2) := Prod.ext hT rfl
    obtain ⟨t, r, hok, rfl, hrun⟩ := Context.infer_eq_ok hinfer
    obtain ⟨hr, ht, -⟩ := (hsynth (.const .absent)).of_ok hok
    obtain ⟨hplain, hshort, -⟩ := prune_spec hr.acyclic t
    refine ⟨?_, fun m hm => ?_, fun τ => ((hsynth τ).of_ok hok).2.2.trans (ht.exists_instance_iff hr)⟩
    · rw [← Ty.rankOne_plain, hplain]
      exact ht.opening.rankOne
    · rw [← hrun]
      exact (hshort.unsolved m).2 (unsolved_of_mem_prune hr.acyclic hm)
  refine ⟨⟨?_, ?_⟩, fun T hT => (hanswer T hT).2⟩
  · rintro ⟨T, hT⟩
    obtain ⟨hrank, -, hiff⟩ := hanswer T hT
    have hmono : ∀ _ : MVar, (Nameless.const (.name "")).Mono := fun _ => trivial
    obtain ⟨τ, hτ⟩ := hrank.exists_instance hmono
    exact ⟨τ, (hiff τ).2 ⟨_, hmono, hτ⟩⟩
  · rintro ⟨τ, hτ⟩
    have hne : e ≠ .absent := by
      rintro rfl
      exact he
    cases hx : synth { env } .empty e (c.start e env) with
    | ok t r => exact ⟨_, Context.infer_of_synth hne henv hx⟩
    | error stop r => exact absurd hτ ((hsynth τ).of_error hx)

/-- A partial application of a polymorphic constant function: the parameter that is left may have
any simple type. -/
theorem infer_principal_of_partial_application :
    let env : Env := [[("const", .alls ["a", "b"] (.arrows [.var "a", .var "b"] (.var "a"))),
      ("one", .var "int")]]
    let e : Expr := .app (.fn "x" (.app (.var "const") (.var "x"))) (.var "one")
    (∃ n m, (({} : Context).infer e env).1 = .ok (.arrow n (.mvar m) (.var "int"))) ∧
      ∀ τ, Simply (fun x => (env.find? x).map Ty.nameless) e τ ↔
        ∃ A : Nameless, A.Mono ∧ τ = .arrow A (.const (.name "int")) := by
  intro env e
  have hinfer : (({} : Context).infer e env).1 =
      .ok (.arrow 13 (.mvar ⟨9, 3, .empty⟩) (.var "int")) := by decide +kernel
  have htypes : env.Every fun t => t.Ground ∧ t.RankOne := Env.every_of_declared (by decide)
  refine ⟨⟨_, _, hinfer⟩, fun τ => ?_⟩
  rw [((infer_principal {} (.inr ⟨rfl, rfl, rfl⟩) e (by decide) env (by decide) htypes).2 _
    hinfer).2 τ]
  constructor
  · rintro ⟨σ, hσ, h⟩
    have hmono : (Nameless.arrow (σ ⟨9, 3, .empty⟩) (.const (.name "int"))).Mono := ⟨hσ _, trivial⟩
    exact ⟨_, hσ _, (hmono.instance_iff.1 h).symm⟩
  · rintro ⟨A, hA, rfl⟩
    exact ⟨fun _ => A, fun _ => hA, .mono ⟨hA, trivial⟩⟩

end RankN
