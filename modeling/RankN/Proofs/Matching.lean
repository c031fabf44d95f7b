import RankN.Proofs.Rigid

/-!
# Matching

To make a type equal to a rigid one is to *match* it. Metavariables occur on one side only, so every
one of them that is solved is solved by a part of the rigid type, and what it means is settled there
and then.

**Local names.** The metavariables in play are those of a set `X`. Names must be kept apart in the
pattern and in its target; nothing is asked of the names in the rest of the table, which matching
does not read. This is what makes the result here apply to any reachable run, where
`unify_exact` needs all solutions to be kept apart from the types that are unified.

**Any scopes.** A rigid type has no metavariables whose scopes could differ from that of the one to
be solved. What can stand in the way is a constant out of scope, and then no assignment fits.

Main result: `unify_finds`.
-/

namespace RankN

open RankN.Action

/-! ## Targets -/

namespace Ty

/-- A rigid type with allocated constants in which no free name can be captured. -/
structure Target (B : String → Prop) (n : Nat) (t : Ty) : Prop where
  rigid : t.Rigid n
  allocated : ∀ id ∈ t.skolems, 0 ≤ id
  named : t.plain.Named B []

namespace Target

variable {B : String → Prop} {n n' k : Nat} {p q t : Ty} {r : Run}

theorem mono (h : t.Target B n) (hn : n ≤ n') : t.Target B n' :=
  ⟨h.rigid.mono hn, h.allocated, h.named⟩

theorem isOver (h : t.Target B r.skolems) : t.Over r :=
  ⟨h.rigid.mvars, fun id hid => ⟨h.allocated id hid, h.rigid.2.2 id hid⟩⟩

theorem arrow (h : (Ty.arrow k p q).Target B n) : p.Target B n ∧ q.Target B n := by
  obtain ⟨hp, hq⟩ := rigid_arrow.1 h.rigid
  have hall := h.allocated
  simp only [skolems, List.forall_mem_append] at hall
  exact ⟨⟨hp, hall.1, h.named.1⟩, hq, hall.2, h.named.2⟩

theorem app (h : (Ty.app k p q).Target B n) : p.Target B n ∧ q.Target B n := by
  obtain ⟨hp, hq⟩ := rigid_app.1 h.rigid
  have hall := h.allocated
  simp only [skolems, List.forall_mem_append] at hall
  exact ⟨⟨hp, hall.1, h.named.1⟩, hq, hall.2, h.named.2⟩

/-- A quantified target is a target when it is opened at the next constant. -/
theorem openAll {x : String} (h : (Ty.all k x t).Target B n) (r : Run) :
    (openAll x t (.skolem n) r).1.Target B (n + 1) := by
  have hplain := (rigid_all.1 h.rigid).plain_openAll x n r
  refine ⟨(rigid_all.1 h.rigid).openAll x r, ?_, ?_⟩
  · have hleaves : t.Leaves (fun _ => True) (0 ≤ ·) := ⟨fun _ _ => trivial, h.allocated⟩
    have hopen := @leaves_replace _ _ x _ (.skolem n) (leaves_plain.2 hleaves) (by simp)
    rw [← hplain, leaves_plain] at hopen
    exact hopen.2
  · rw [hplain]
    exact (stable_named B).atSkolem h.named n

end Target

theorem Rigid.read_expand {n : Nat} {t : Ty} (h : t.Rigid n) (θ : Assignment) (tb : Table) :
    θ.read (tb.expand t) = t.nameless := by
  rw [Table.expand_of_unsolved h.mvars, Assignment.read, read_plain]
  exact read_congr h.mvars

end Ty

/-! ## Patterns -/

/-- A type of the run whose metavariables, once it is expanded, are in `X`, and in which no free
name can be captured. -/
structure Ty.Pattern (B : String → Prop) (X : MVar → Prop) (r : Run) (t : Ty) : Prop where
  isOver : t.Over r
  inside : t.Inside r X
  named : (r.table.expand t).Named B []

/-- A valid run that owns the metavariables in `X` and has solved some of them by targets. -/
structure Run.Matched (B : String → Prop) (X : MVar → Prop) (r : Run) : Prop where
  valid : r.Valid Ty.Any
  owned : ∀ m, X m → r.table.owns m
  solutions : ∀ m t, X m → r.table.solution? m = some t → t.Target B r.skolems

/-- The metavariables in `X` that are solved mean what their solutions mean. -/
def Assignment.ModelsOn (θ : Assignment) (X : MVar → Prop) (tb : Table) : Prop :=
  ∀ m t, X m → tb.solution? m = some t → θ.type m = t.nameless

section

variable {B : String → Prop} {X : MVar → Prop} {r r' r₁ : Run} {t u : Ty} {m : MVar}
  {θ : Assignment}

theorem Run.Matched.of_table_eq (h : r.Matched B X) (hr' : r'.Valid Ty.Any)
    (ht : r'.table = r.table) (hs : r.skolems ≤ r'.skolems) : r'.Matched B X where
  valid := hr'
  owned m hm := by
    rw [ht]
    exact h.owned m hm
  solutions m t hm hsol := by
    rw [ht] at hsol
    exact (h.solutions m t hm hsol).mono hs

/-- A metavariable in `X` stands for itself or for a target. -/
theorem Run.Matched.expand_mvar (h : r.Matched B X) (hm : X m) :
    r.table.expand (.mvar m) = .mvar m ∨
      ∃ t, r.table.solution? m = some t ∧ t.Target B r.skolems ∧
        r.table.expand (.mvar m) = t.plain := by
  cases hs : r.table.solution? m with
  | none => exact .inl (Table.expand_unsolved hs)
  | some t =>
    have ht := h.solutions m t hm hs
    refine .inr ⟨t, rfl, ht, ?_⟩
    rw [h.valid.acyclic.expand_solved hs, Table.expand_of_unsolved ht.rigid.mvars]

theorem Run.Matched.named_mvar (h : r.Matched B X) (hm : X m) :
    (r.table.expand (.mvar m)).Named B [] := by
  rcases h.expand_mvar hm with hexp | ⟨t, -, ht, hexp⟩
  · rw [hexp]
    trivial
  · rw [hexp]
    exact ht.named

theorem Run.Matched.inside_mvar (h : r.Matched B X) (hm : X m) : (Ty.mvar m).Inside r X := by
  rcases h.expand_mvar hm with hexp | ⟨t, -, ht, hexp⟩
  · refine ⟨?_, ?_⟩
    · rw [hexp]
      trivial
    · rw [hexp]
      exact Ty.leaves_mvar.2 hm
  · refine ⟨?_, ?_⟩
    · rw [hexp]
      exact Ty.built_plain.2 ht.rigid.1.complete
    · rw [hexp, Ty.leaves_plain]
      exact ⟨ht.rigid.mvars, fun _ _ => trivial⟩

theorem Assignment.ModelsOn.read_mvar (hθ : θ.ModelsOn X r.table) (h : r.Matched B X) (hm : X m) :
    θ.read (r.table.expand (.mvar m)) = θ.type m := by
  rcases h.expand_mvar hm with hexp | ⟨t, hs, ht, -⟩
  · rw [hexp]
    rfl
  · rw [h.valid.acyclic.expand_solved hs, ht.rigid.read_expand, hθ m t hm hs]

/-! ### Patterns in later runs -/

/-- In a later run a type is expanded further, at the metavariables that were left. -/
theorem Run.Valid.expand_later (hr : r.Valid Ty.Any) (hr' : r'.Valid Ty.Any) (he : r.Extends r')
    (t : Ty) : r'.table.expand t = (r.table.expand t).fill fun m => r'.table.expand (.mvar m) := by
  rw [← hr.acyclic.expand_expand_of_le hr'.acyclic he.solution, Table.expand_eq_fill,
    Table.plain_expand]

namespace Ty.Pattern

theorem of_table_eq (h : t.Pattern B X r) (he : r.Extends r') (ht : r'.table = r.table) :
    t.Pattern B X r' := by
  refine ⟨he.isOver h.isOver, h.inside.of_table_eq ht, ?_⟩
  rw [ht]
  exact h.named

theorem arrow {k : Nat} {p q : Ty} (h : (Ty.arrow k p q).Pattern B X r) :
    p.Pattern B X r ∧ q.Pattern B X r := by
  obtain ⟨hp, hq⟩ := leaves_arrow.1 h.isOver
  obtain ⟨hpi, hqi⟩ := h.inside.arrow
  exact ⟨⟨hp, hpi, h.named.1⟩, hq, hqi, h.named.2⟩

theorem app {k : Nat} {f a : Ty} (h : (Ty.app k f a).Pattern B X r) :
    f.Pattern B X r ∧ a.Pattern B X r := by
  obtain ⟨hf, ha⟩ := leaves_app.1 h.isOver
  obtain ⟨hfi, hai⟩ := h.inside.app
  exact ⟨⟨hf, hfi, h.named.1⟩, ha, hai, h.named.2⟩

theorem solution (h : (Ty.mvar m).Pattern B X r) (hr : r.Valid Ty.Any)
    (hs : r.table.solution? m = some t) : t.Pattern B X r := by
  refine ⟨(hr.solutions m t hs).isOver, h.inside.solution hr.acyclic hs, ?_⟩
  rw [← hr.acyclic.expand_solved hs]
  exact h.named

/-- A quantified pattern is a pattern when it is opened at a constant. -/
theorem opened {k : Nat} {x : String} {t' : Ty} {c : Int} (h : (Ty.all k x t).Pattern B X r)
    (ht' : t'.Over r') (hexp : r'.table.expand t' = (r.table.expand t).replace x (.skolem c)) :
    t'.Pattern B X r' := by
  have hcomplete : (r.table.expand t).Complete := h.inside.complete
  have hnamed : ((r.table.expand t).replace x (.skolem c)).Named B [] :=
    (stable_named B).atSkolem h.named c
  refine ⟨ht', ⟨?_, ?_⟩, ?_⟩
  · rw [hexp]
    exact hcomplete.replace x trivial
  · rw [hexp]
    exact leaves_replace h.inside.mvars (by simp)
  · rwa [hexp]

/-- A pattern is one in every later run. -/
theorem mono (h : t.Pattern B X r) (hr : r.Valid Ty.Any) (hr' : r'.Matched B X)
    (he : r.Extends r') : t.Pattern B X r' := by
  have hexp := hr.expand_later hr'.valid he t
  refine ⟨he.isOver h.isOver, ⟨?_, ?_⟩, ?_⟩
  · rw [hexp]
    exact h.inside.complete.fill fun m hm => (hr'.inside_mvar (h.inside.mvars.1 m hm)).complete
  · rw [hexp]
    exact leaves_fill.2
      ⟨fun m hm => (hr'.inside_mvar (h.inside.mvars.1 m hm)).mvars, fun _ _ => trivial⟩
  · rw [hexp]
    exact h.named.fill fun m hm => hr'.named_mvar (h.inside.mvars.1 m hm)

/-- A pattern means the same in every later run. -/
theorem read_later (h : t.Pattern B X r) (hr : r.Valid Ty.Any) (hr' : r'.Matched B X)
    (he : r.Extends r') (hθ : θ.ModelsOn X r'.table) :
    θ.read (r'.table.expand t) = θ.read (r.table.expand t) := by
  have hexp := hr.expand_later hr'.valid he t
  have hnamed := (h.mono hr hr' he).named
  rw [hexp] at hnamed ⊢
  have hfill := hnamed.read_fill (θ := θ.type) (by simp) fun m hm =>
    hr'.named_mvar (h.inside.mvars.1 m hm)
  exact hfill.trans <| read_congr fun m hm => hθ.read_mvar hr' (h.inside.mvars.1 m hm)

end Ty.Pattern

/-! ## What matching finds -/

/-- If the action succeeds, the assignments that fit the run it leaves are those that fitted before
and fulfil the condition; if it fails, and not for lack of steps, there are none. -/
def Action.Finds (B : String → Prop) (X : MVar → Prop) (x : Solve Unit) (r : Run)
    (C : Assignment → Prop) : Prop :=
  x.Ensures r
    (fun _ r' => r'.Matched B X ∧ r.Extends r' ∧
      ∀ θ : Assignment, θ.ModelsOn X r'.table ↔ θ.ModelsOn X r.table ∧ C θ)
    fun stop _ => stop.inTime → ∀ θ : Assignment, θ.ModelsOn X r.table → ¬ C θ

namespace Action.Finds

variable {x y : Solve Unit} {C D : Assignment → Prop}

/-- What does not touch the table may come first. -/
theorem after (h : x.Finds B X r₁ C) (he : r.Extends r₁) (ht : r₁.table = r.table)
    (hCD : ∀ θ : Assignment, θ.ModelsOn X r.table → (C θ ↔ D θ)) :
    x.Ensures r₁
      (fun _ r' => r'.Matched B X ∧ r.Extends r' ∧
        ∀ θ : Assignment, θ.ModelsOn X r'.table ↔ θ.ModelsOn X r.table ∧ D θ)
      fun stop _ => stop.inTime → ∀ θ : Assignment, θ.ModelsOn X r.table → ¬ D θ := by
  refine Ensures.mono h (fun _ r' h => ⟨h.1, he.trans h.2.1, fun θ => ?_⟩) ?_
  · rw [h.2.2 θ, ht]
    exact and_congr_right fun hθ => hCD θ hθ
  · intro stop _ h hstop θ hθ hD
    exact h hstop θ (ht ▸ hθ) ((hCD θ hθ).2 hD)

theorem congr (h : x.Finds B X r C)
    (hCD : ∀ θ : Assignment, θ.ModelsOn X r.table → (C θ ↔ D θ)) : x.Finds B X r D :=
  h.after (.refl r) rfl hCD

/-- Two conditions, one after the other. -/
theorem seq (hx : x.Finds B X r C)
    (hy : ∀ r', r'.Matched B X → r.Extends r' → y.Finds B X r' D) :
    (do x; y : Solve Unit).Finds B X r fun θ => C θ ∧ D θ := by
  apply ensures_bind.2
  apply Ensures.mono hx
  · intro _ r₁ ⟨hr₁, he₁, h₁⟩
    refine Ensures.mono (hy r₁ hr₁ he₁) (fun _ r₂ h₂ => ⟨h₂.1, he₁.trans h₂.2.1, fun θ => ?_⟩) ?_
    · rw [h₂.2.2 θ, h₁ θ, and_assoc]
    · intro stop _ h hstop θ hθ hCD
      exact h hstop θ ((h₁ θ).2 ⟨hθ, hCD.1⟩) hCD.2
  · intro stop _ h hstop θ hθ hCD
    exact h hstop θ hθ hCD.1

end Action.Finds

theorem Assignment.modelsOn_solved (ho : r.table.owns m) (hm : r.table.solution? m = none)
    (hX : X m) :
    θ.ModelsOn X (r.solved m t).table ↔ θ.ModelsOn X r.table ∧ θ.type m = t.nameless := by
  constructor
  · intro h
    exact ⟨fun k u hk hu => h k u hk ((r.extends_solved hm t).solution k u hu),
      h m t hX (Table.solution?_write_self ho t)⟩
  · intro h k u hk hu
    rcases Run.solution?_solved ho hu with ⟨rfl, rfl⟩ | hu
    · exact h.2
    · exact h.1 k u hk hu

/-- **A metavariable in `X` is solved by a target, or no assignment fits.** -/
theorem settle_finds (hr : r.Matched B X) (hX : X m) (hm : r.table.solution? m = none)
    (ht : t.Target B r.skolems) :
    (settle m t).Finds B X r fun θ => θ.type m = t.nameless := by
  have hplain : r.table.expand t = t.plain := Table.expand_of_unsolved ht.rigid.mvars
  refine ensures_settle (fun why hwhy _ θ _ heq => ?_) fun hfree => ?_
  · have hin := obstacle?_eq_some hr.valid.acyclic hm hwhy
    rw [hplain] at hin
    have hmvars : t.plain.mvars = [] := by
      rw [Ty.mvars_plain]
      exact List.eq_nil_iff_forall_not_mem.2 ht.rigid.mvars
    cases why with
    | skolemEscape =>
      obtain ⟨id, hid, hout⟩ := hin
      refine hout (θ.inScope m id ?_)
      rw [heq, Ty.nameless, ← Ty.read_plain]
      exact Ty.skolem_mem_atoms_read hid _ _
    | occurs => simp [Obstacle.In, hmvars] at hin
    | scopeMismatch => simp [Obstacle.In, hmvars] at hin
  · obtain ⟨hocc, hfit⟩ := (obstacle?_eq_none hr.valid.acyclic hm).1 hfree
    have ho := hr.owned m hX
    refine ensures_assign ho hm (fun habsent => ?_) fun _ => ⟨⟨?_, ?_, ?_⟩, ?_, fun θ => ?_⟩
    · exact absurd ht.rigid.1 (by simp [habsent, Ty.Built])
    · exact hr.valid.solved Ty.stable_any ho hm ⟨ht.isOver, trivial⟩ hocc hfit
    · exact fun k hk => by simpa using hr.owned k hk
    · intro k u hk hu
      rcases Run.solution?_solved ho hu with ⟨rfl, rfl⟩ | hu
      · exact ht
      · exact hr.solutions k u hk hu
    · exact r.extends_solved hm t
    · exact Assignment.modelsOn_solved ho hm hX

/-- Making a pattern equal to a target within `n` steps finds the assignments that do. -/
def UnifyFinds (B : String → Prop) (X : MVar → Prop) (n : Nat) : Prop :=
  ∀ (t u : Ty) (r : Run), r.Matched B X → t.Pattern B X r → u.Target B r.skolems →
    (unifyWithin n t u).Finds B X r fun θ => θ.read (r.table.expand t) = u.nameless

/-- Making a metavariable equal to a target within `n` steps finds the assignments that do. -/
def SolveFinds (B : String → Prop) (X : MVar → Prop) (n : Nat) : Prop :=
  ∀ (m : MVar) (u : Ty) (r : Run), r.Matched B X → (Ty.mvar m).Pattern B X r →
    u.Target B r.skolems →
    (solveWithin n m u).Finds B X r fun θ => θ.read (r.table.expand (.mvar m)) = u.nameless

/-- The parts of a pattern are matched one after the other. -/
theorem UnifyFinds.both {n : Nat} (ih : UnifyFinds B X n) {p p' q q' : Ty}
    (hr : r.Matched B X) (h : p.Pattern B X r ∧ q.Pattern B X r)
    (h' : p'.Target B r.skolems ∧ q'.Target B r.skolems) :
    (do unifyWithin n p p'; unifyWithin n q q' : Solve Unit).Finds B X r fun θ =>
      θ.read (r.table.expand p) = p'.nameless ∧ θ.read (r.table.expand q) = q'.nameless := by
  refine (ih p p' r hr h.1 h'.1).seq fun r₁ hr₁ he₁ => ?_
  refine (ih q q' r₁ hr₁ (h.2.mono hr.valid hr₁ he₁) (h'.2.mono he₁.skolems)).congr fun θ hθ => ?_
  rw [h.2.read_later hr.valid hr₁ he₁ hθ]

/-- A pattern and a target mean the same at a constant that neither mentions if and only if the
quantified types do. -/
theorem read_opened_iff {k k' : Nat} {x y : String} (hr : r.Valid Ty.Any) (ht : t.Over r)
    (hu : u.Rigid r.skolems) :
    θ.read ((r.table.expand t).replace x (.skolem r.skolems)) =
        (openAll y u (.skolem r.skolems) r').1.nameless ↔
      θ.read (r.table.expand (.all k x t)) = (Ty.all k' y u).nameless := by
  have hread : θ.read ((r.table.expand t).replace x (.skolem r.skolems)) =
      ((r.table.expand t).read θ.type [x]).instantiate 0 (.const (.skolem r.skolems)) :=
    Ty.read_replace θ.closed (fun _ => rfl) List.not_mem_nil _
  have hfresh : Atom.skolem r.skolems ∉ ((r.table.expand t).read θ.type [x]).atoms :=
    (ht.expand hr).fresh hr [x]
  rw [hread, hu.nameless_openAll]
  simp only [Assignment.read, Table.expand_all, Ty.nameless, Ty.read, Nameless.all.injEq]
  exact ⟨Nameless.instantiate_const_inj hfresh (hu.fresh [y]), fun h => by rw [h]⟩

/-- **Opening a pattern and a target at one constant.** -/
theorem finds_opened {k k' : Nat} {x y : String} {f : Ty → Ty → Solve Unit} (hr : r.Matched B X)
    (ht : (Ty.all k x t).Pattern B X r) (hu : (Ty.all k' y u).Target B r.skolems)
    (h : ∀ t' u' r', r'.Matched B X → t'.Pattern B X r' → u'.Target B r'.skolems →
      (f t' u').Finds B X r' fun θ => θ.read (r'.table.expand t') = u'.nameless) :
    (do
      let c ← Run.newSkolem
      let t ← openAll x t (.skolem c)
      let u ← openAll y u (.skolem c)
      f t u : Solve Unit).Finds B X r fun θ =>
        θ.read (r.table.expand (.all k x t)) = (Ty.all k' y u).nameless := by
  obtain ⟨hr₁, he₁, -, hc, htable⟩ := ensures_lift.1 (keeps_newSkolem (ε := TypeError) hr.valid)
  refine ensures_bind.2 (ensures_lift.2 (ensures_bind.2 (ensures_lift.2 ?_)))
  obtain ⟨hr₂, he₂, ht', hagree, hexp⟩ := ensures_lift.1
    (keeps_openAll_skolem (ε := TypeError) Ty.stable_any hr₁
      (Ty.Of.mono Ty.stable_any hr.valid hr₁ he₁ ⟨ht.isOver, trivial⟩) hc)
  refine ensures_bind.2 (ensures_lift.2 ?_)
  generalize hr₂' : (openAll x t (.skolem (Run.newSkolem r).1) (Run.newSkolem r).2).2 = r₂ at *
  have hagree' := (subst_restamped y (.skolem (Run.newSkolem r).1) u r₂).agrees
  have hskolems : r₂.skolems = r.skolems + 1 := hagree.skolems
  have htable₃ := hagree'.table.trans (hagree.table.trans htable)
  have he₃ := (he₁.trans he₂).trans hagree'.extends_
  have hr₃ := hr.of_table_eq (hagree'.valid hr₂) htable₃ he₃.skolems
  have hexp₃ := hexp
  rw [← hagree'.table, htable] at hexp₃
  have hu₃ := hu.openAll r₂
  rw [← hskolems, ← hagree'.skolems] at hu₃
  refine (h _ _ _ hr₃ (ht.opened (hagree'.extends_.isOver ht'.isOver) hexp₃) hu₃).after he₃ htable₃
    fun θ _ => ?_
  rw [hexp₃]
  exact read_opened_iff hr.valid (show t.Over r from ht.isOver) (Ty.rigid_all.1 hu.rigid)

theorem Ty.Clashes.read_expand_ne (h : t.Clashes u) (hne : t ≠ u) :
    θ.read (r.table.expand t) ≠ u.nameless := by
  cases t <;> cases u <;> simp_all [Assignment.read, Ty.nameless, Ty.Clashes]

/-- Making patterns equal to targets: stops at the same node, descends, or solves. -/
theorem unifyWithin_finds_step {n : Nat} (hunify : UnifyFinds B X n)
    (hsolve : SolveFinds B X n) : UnifyFinds B X (n + 1) := by
  intro t u r hr ht hu
  have hlog := r.agrees_log (.unify t u)
  have hr₁ := hr.of_table_eq (hlog.valid hr.valid) hlog.table hlog.skolems.ge
  have ht₁ := ht.of_table_eq hlog.extends_ hlog.table
  have hu₁ := hu
  rw [← hlog.skolems] at hu₁
  apply ensures_unifyWithin
  · intro heq
    subst heq
    refine ⟨hr₁, hlog.extends_, fun θ => ?_⟩
    rw [hlog.table]
    exact ⟨fun hθ => ⟨hθ, hu.rigid.read_expand θ _⟩, fun h => h.1⟩
  · rintro k p q k' p' q' rfl rfl
    refine (hunify.both hr₁ ht₁.arrow hu₁.arrow).after hlog.extends_ hlog.table fun θ _ => ?_
    rw [hlog.table]
    simp [Assignment.read, Ty.nameless]
  · rintro k f x k' f' x' rfl rfl
    refine (hunify.both hr₁ ht₁.app hu₁.app).after hlog.extends_ hlog.table fun θ _ => ?_
    rw [hlog.table]
    simp [Assignment.read, Ty.nameless]
  · rintro k x t k' y u rfl rfl
    refine (finds_opened hr₁ ht₁ hu₁ hunify).after hlog.extends_ hlog.table fun θ _ => ?_
    rw [hlog.table]
  · rintro m rfl
    refine (hsolve m u _ hr₁ ht₁ hu₁).after hlog.extends_ hlog.table fun θ _ => ?_
    rw [hlog.table]
  · rintro m rfl
    exact (hu.rigid.mvars (P := fun _ => False) m (by simp)).elim
  · intro hne hclash
    unfold mismatch
    simp only [ensures_bind, ensures_lift]
    exact fun _ θ _ => hclash.read_expand_ne hne

theorem solveWithin_finds_step {n : Nat} (hunify : UnifyFinds B X n) :
    SolveFinds B X (n + 1) := by
  intro m u r hr hm hu
  have hlog := r.agrees_log (.solve m u)
  have hr₁ := hr.of_table_eq (hlog.valid hr.valid) hlog.table hlog.skolems.ge
  have hu₁ := hu
  rw [← hlog.skolems] at hu₁
  have hne : ∀ k, u ≠ .mvar k := by
    rintro k rfl
    exact hu.rigid.mvars (P := fun _ => False) k (by simp)
  apply ensures_solveWithin
  · exact fun h => absurd h (hne m)
  · intro t hs
    have ht := (hm.solution hr.valid hs).of_table_eq hlog.extends_ hlog.table
    refine (hunify t u _ hr₁ ht hu₁).after hlog.extends_ hlog.table fun θ _ => ?_
    rw [hlog.table, hr.valid.acyclic.expand_solved hs]
  · exact fun k _ _ h => absurd h (hne k)
  · intro hs _ _
    have hX := (Ty.inside_unsolved hs).1 hm.inside
    rw [← hlog.table] at hs
    refine (settle_finds hr₁ hX hs hu₁).after hlog.extends_ hlog.table fun θ _ => ?_
    rw [← hlog.table, Table.expand_unsolved hs]
    rfl

theorem unifyWithin_finds (n : Nat) : UnifyFinds B X n ∧ SolveFinds B X n := by
  induction n with
  | zero =>
    refine ⟨fun t u r _ _ _ => ?_, fun m u r _ _ _ => ?_⟩
    · rw [unifyWithin]
      exact fun h => absurd rfl h
    · rw [solveWithin]
      exact fun h => absurd rfl h
  | succ n ih => exact ⟨unifyWithin_finds_step ih.1 ih.2, solveWithin_finds_step ih.1⟩

/-- **Unification with a rigid type finds all assignments that make the pattern equal to it**, and
fails only if there are none. -/
theorem unify_finds (hr : r.Matched B X) (ht : t.Pattern B X r) (hu : u.Target B r.skolems) :
    (unify t u).Ensures r
      (fun _ r' => r'.Matched B X ∧ ∀ θ : Assignment, θ.ModelsOn X r'.table ↔
        θ.ModelsOn X r.table ∧ θ.read (r.table.expand t) = u.nameless)
      fun _ _ => ∀ θ : Assignment, θ.ModelsOn X r.table →
        θ.read (r.table.expand t) ≠ u.nameless := by
  have hfinds : (unify t u).Finds B X r fun θ => θ.read (r.table.expand t) = u.nameless :=
    ensures_bind.2 (ensures_get.2 ((unifyWithin_finds _).1 t u r hr ht hu))
  refine (Ensures.and hfinds (unify_finishes hr.valid.acyclic t u)).mono ?_ ?_
  · exact fun _ r' h => ⟨h.1.1, h.1.2.2⟩
  · exact fun stop _ h => h.1 h.2

end

end RankN
