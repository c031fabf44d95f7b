import RankN.Proofs.Soundness
import RankN.Proofs.Unifiers
import RankN.Proofs.WriteOnce

/-!
# What unification finds

Two results about `unify a b` in reachable runs, for types read through the table and taken up to
renaming of bound names.

**Soundness** (`Reachable.unify_sound`). After a success the two types are equal, and stay equal
whatever operations follow. The constants that stood for quantified variables on the way have not
found their way into a solution.

**Most general unifiers** (`Reachable.unify_most_general`). If all metavariables in play have one
scope, unification succeeds exactly if some types can be put for them that make the two types equal,
and then every such choice is an instance of what unification found.

Both ask that no name is bound in one of the types involved and free in another (`Apart`), because
opening a quantifier does not rename.
-/

namespace RankN

open RankN.Action Relation

/-! ## Names -/

/-- No name is bound in one of the types and free in one of them. -/
def Apart (ts : List Ty) : Prop := ∀ t ∈ ts, ∀ u ∈ ts, ∀ x ∈ t.binders, x ∉ u.freeNames

instance (ts : List Ty) : Decidable (Apart ts) :=
  inferInstanceAs (Decidable (∀ t ∈ ts, ∀ u ∈ ts, ∀ x ∈ t.binders, x ∉ u.freeNames))

/-- The types in the slots of the table. -/
def Table.solutions (tb : Table) : List Ty := tb.slots.toList.filterMap (·.solution)

theorem Table.mem_solutions {tb : Table} {m : MVar} {t : Ty} (h : tb.solution? m = some t) :
    t ∈ tb.solutions := by
  obtain ⟨s, hs, ht⟩ := Option.bind_eq_some_iff.1 h
  obtain ⟨hget, -⟩ := Table.slot?_eq_some.1 hs
  exact List.mem_filterMap.2 ⟨s, Array.mem_toList_iff.2 (Array.mem_of_getElem? hget), ht⟩

/-- The name is bound in one of the types. -/
def Binds (ts : List Ty) (x : String) : Prop := ∃ t ∈ ts, x ∈ t.binders

section

variable {P Q : Ty → Prop} {r r' : Run} {ts : List Ty} {t : Ty}

/-- What holds of all slots holds of the expansions of metavariables. -/
theorem Ty.Stable.expand_mvar (hP : Ty.Stable P) {tb : Table} (ha : tb.Acyclic)
    (h : ∀ m t, tb.solution? m = some t → P t.plain) (m : MVar) : P (tb.expand (.mvar m)) := by
  have main : ∀ t : Ty, ∀ k ∈ t.mvars, P (tb.expand (.mvar k)) := by
    intro t
    induction t using ha.induction with
    | var | skolem | unknown | absent => simp
    | all n x body ih => exact ih
    | arrow n p q ihp ihq => exact List.forall_mem_append.2 ⟨ihp, ihq⟩
    | app n f a ihf iha => exact List.forall_mem_append.2 ⟨ihf, iha⟩
    | unsolved k hk =>
      intro j hj
      rw [List.mem_singleton.1 hj, Table.expand_unsolved hk]
      exact hP.mvar k
    | solved k u hu ih =>
      intro j hj
      rw [List.mem_singleton.1 hj, ha.expand_solved hu, tb.expand_eq_fill]
      apply hP.fill (h k u hu)
      rwa [Ty.mvars_plain]
  exact main (.mvar m) m (by simp)

/-- A valid run has solutions in `P` if its slots are in `P`. -/
theorem Run.Valid.of_slots (hP : Ty.Stable P) (hr : r.Valid Q)
    (h : ∀ m t, r.table.solution? m = some t → P t.plain) : r.Valid P := by
  refine { hr with solutions := fun m t ht => ⟨(hr.solutions m t ht).isOver, ?_⟩ }
  rw [← hr.acyclic.expand_solved ht]
  exact hP.expand_mvar hr.acyclic h m

theorem Apart.named (h : Apart ts) (ht : t ∈ ts) : t.plain.Named (Binds ts) [] := by
  apply Ty.named_plain
  · exact fun x hx => ⟨t, ht, hx⟩
  · rintro x hx
    right
    rintro ⟨u, hu, hux⟩
    exact h u hu t ht x hux hx

/-- Where names are kept apart, no free name can be captured in the run. -/
theorem Apart.valid (h : Apart ts) (hr : r.Valid Q) (hts : r.table.solutions ⊆ ts) :
    r.Valid (Ty.Named (Binds ts) []) :=
  hr.of_slots (Ty.stable_named _) fun _ _ ht => h.named (hts (Table.mem_solutions ht))

theorem Apart.named_expand (h : Apart ts) (hr : r.Valid (Ty.Named (Binds ts) [])) (ht : t ∈ ts) :
    (r.table.expand t).Named (Binds ts) [] :=
  (Ty.stable_named _).expand hr.acyclic (fun m u hu => (hr.solutions m u hu).mem) (h.named ht)

end

/-! ## Meanings of pruned types -/

section

variable {P : Ty → Prop} {B : String → Prop} {r r' : Run} {σ θ : Assignment} {t : Ty}

theorem Ty.read_prune (ha : r.table.Acyclic) (θ : MVar → Nameless) (t : Ty) :
    (prune t r).1.read θ [] = (r.table.expand t).read θ [] := by
  rw [← (prune_spec ha t).plain]
  exact (Ty.read_plain θ [] _).symm

theorem mem_mvars_prune (ha : r.table.Acyclic) {m : MVar} :
    m ∈ (prune t r).1.mvars ↔ r.table.Reaches t m ∧ r.table.solution? m = none := by
  rw [← Ty.mvars_plain, (prune_spec ha t).plain]
  exact ha.mem_mvars_expand

/-- **Models of a later run are models of the earlier one.** -/
theorem Assignment.Models.of_continues (hθ : θ.Models r'.table) (he : r.Continues r')
    (hr' : r'.Valid P) (hP : ∀ t, P t → t.Named B [])
    (hslots : ∀ m t, r.table.solution? m = some t → (r'.table.expand t).Named B []) :
    θ.Models r.table := by
  intro m t ht
  obtain ⟨⟨u, hu⟩, hexp⟩ := he.solved m t ht
  have hread : ∀ {v : Ty}, (r'.table.expand v).Named B [] → θ.read (r'.table.expand v) = θ.read v :=
    fun hv => hθ.read_expand hr' hP (by simp) hv
  calc θ.type m = θ.read u := hθ m u hu
    _ = θ.read (r'.table.expand u) := (hread (hP _ (hr'.solutions m u hu).mem)).symm
    _ = θ.read (r'.table.expand t) := by rw [← hr'.acyclic.expand_solved hu, hexp]
    _ = θ.read t := hread (hslots m t ht)

end

/-! ## Soundness -/

/-- Equality up to renaming of bound names. -/
def Ty.AlphaEq (t u : Ty) : Prop := t.nameless = u.nameless

instance (t u : Ty) : Decidable (t.AlphaEq u) := inferInstanceAs (Decidable (_ = _))

/-- One operation leads from `r` to `r'`, with names kept apart from those of `a`, `b` and the
table. -/
def Run.StepApart (a b : Ty) (r r' : Run) : Prop :=
  ∃ op : Operation, op.Over r ∧ Apart (a :: b :: (r.table.solutions ++ op.types)) ∧ op.run r = r'

/-- The types mean the same in all models of the run. -/
structure Unified (a b : Ty) (r : Run) : Prop where
  named : ∃ B, r.Valid (Ty.Named B []) ∧ (r.table.expand a).Named B [] ∧ (r.table.expand b).Named B []
  models : ∀ θ : Assignment, θ.Models r.table → θ.read a = θ.read b

section

variable {P : Ty → Prop} {a b : Ty} {r r' : Run}

theorem Unified.alphaEq (h : Unified a b r) : (prune a r).1.AlphaEq (prune b r).1 := by
  obtain ⟨B, hr, ha, hb⟩ := h.named
  -- In the model that leaves unsolved metavariables alone, types mean their expansions.
  have hread : ∀ t : Ty, (r.table.expand t).Named B [] →
      (Assignment.constant.through hr).read t = (prune t r).1.nameless := by
    intro t ht
    rw [Assignment.read_through hr (fun _ h => h) ht]
    exact (Ty.read_prune hr.acyclic _ t).symm
  rw [Ty.AlphaEq, ← hread a ha, ← hread b hb]
  exact h.models _ (Assignment.models_through hr fun _ h => h)

/-- **One operation keeps types equal.** -/
theorem Unified.step (h : Unified a b r) (hstep : Run.StepApart a b r r') : Unified a b r' := by
  obtain ⟨op, ho, hnames, rfl⟩ := hstep
  obtain ⟨B, hr₀, -, -⟩ := h.named
  have hr := hnames.valid hr₀ fun t ht => by simp [ht]
  have hr' := hr.operation (Ty.stable_named _) ho fun t ht =>
    hnames.named_expand hr (by simp [ht])
  refine ⟨⟨_, hr', ?_, ?_⟩, fun θ hθ => h.models θ ?_⟩
  · exact hnames.named_expand hr' (by simp)
  · exact hnames.named_expand hr' (by simp)
  · apply hθ.of_continues (hr.evolves ho).toContinues hr' fun _ h => h
    intro m t ht
    exact hnames.named_expand hr' (by simp [Table.mem_solutions ht])

theorem Unified.steps (h : Unified a b r) (hsteps : ReflTransGen (Run.StepApart a b) r r') :
    Unified a b r' := by
  induction hsteps with
  | refl => exact h
  | tail _ hstep ih => exact ih.step hstep

/-- Where no metavariable is allocated, all that are there were there before. -/
theorem Run.Continues.owns_of_mvars_eq (h : r.Continues r') (hr : r.Valid P) (hr' : r'.Valid P)
    (hm : r'.mvars = r.mvars) {m : MVar} (ho : r'.table.owns m) : r.table.owns m := by
  have hlt := Table.lt_size_of_owns ho
  rw [← hr'.count, hm, hr.count] at hlt
  rw [Table.owns_iff_mvarAt?] at ho ⊢
  have hat : r.table.mvarAt? m.id.toNat = some (r.table.slots[m.id.toNat].mvar) := by
    rw [Table.mvarAt?, Array.getElem?_eq_getElem hlt, Option.map_some]
  rw [hat, ← h.mvarAt _ _ hat, ho]

end

/-- **Soundness of unification.** If `unify a b` succeeds in a reachable run, then no pruned solution
mentions a constant that it has allocated, and the pruned types are equal up to renaming, in the run
it leaves and in all runs that operations with names kept apart lead to. -/
theorem Reachable.unify_sound {r r' : Run} (h : Reachable r) {a b : Ty} (ha : a.Over r)
    (hb : b.Over r) (hnames : Apart (a :: b :: r.table.solutions))
    (hu : unify a b r = .ok () r') :
    (∀ m t, r'.table.solution? m = some t →
      ∀ id ∈ (prune t r').1.skolems, ¬ (r.skolems ≤ id ∧ id < r'.skolems)) ∧
    ∀ r'', ReflTransGen (Run.StepApart a b) r' r'' → (prune a r'').1.AlphaEq (prune b r'').1 := by
  have hr := hnames.valid h.valid fun t ht => by simp [ht]
  have haP := hnames.named_expand hr (by simp : a ∈ _)
  have hbP := hnames.named_expand hr (by simp : b ∈ _)
  obtain ⟨hr', -, hnarrow⟩ := (unify_models (Ty.stable_named _) (fun _ h => h) hr ⟨ha, haP⟩
    ⟨hb, hbP⟩).of_ok hu
  obtain ⟨he, hmvars⟩ := Ensures.of_ok
    (unify_evolves hr.inOrder (ha.passed hr) (hb.passed hr)) hu
  constructor
  · rintro m t ht id hid ⟨hnew, -⟩
    -- The metavariable was there before the call, so its scope holds older constants only.
    have ho := he.owns_of_mvars_eq hr hr' hmvars (Table.owns_of_solution? ht)
    have hfits : (prune t r').1.Fits m.scope := (leaves_prune hr'.acyclic).2 (hr'.fits m t ht)
    have := (hr.scopes m ho id (hfits.2 id hid)).2
    omega
  · intro r'' hsteps
    have hunified : Unified a b r' := by
      refine ⟨⟨_, hr', hnames.named_expand hr' (by simp), hnames.named_expand hr' (by simp)⟩, ?_⟩
      exact fun θ hθ => ((hnarrow θ).1 hθ).2
    exact (hunified.steps hsteps).alphaEq

/-- In a run with `#0` and `?0` of the scope `[#0]`, unifying `forall x. ?0 -> x` with
`forall y. #0 -> y` allocates `#1` and solves `?0` by `#0`. The types are still equal after `?0` could
not be made equal to `int`. -/
theorem unify_sound_of_quantified :
    let m : MVar := ⟨3, 0, .ofList [0]⟩
    let a : Ty := .all 0 "x" (.arrow 0 (.mvar m) (.var "x"))
    let b : Ty := .all 0 "y" (.arrow 0 (.skolem 0) (.var "y"))
    let r := (Operation.newMVar (.ofList [0])).run (Operation.newSkolem.run {})
    let r' := (Operation.unify a b).run r
    let r'' := (Operation.unify (.mvar m) (.var "int")).run r'
    unify a b r = .ok () r' ∧ r'.skolems = 2 ∧ r'.table.solution? m = some (.skolem 0) ∧
      (∀ id ∈ (prune (.skolem 0) r').1.skolems, ¬ (r.skolems ≤ id ∧ id < r'.skolems)) ∧
      (prune a r'').1.AlphaEq (prune b r'').1 := by
  intro m a b r r' r''
  have hreach : Reachable r := by
    have h₀ : Reachable {} := .empty ⟨rfl, rfl, rfl⟩
    have h₁ := h₀.step .newSkolem trivial
    exact h₁.step (.newMVar (.ofList [0])) (show Scope.Over _ _ by decide)
  have hu : unify a b r = .ok () r' := Action.eq_ok_after (by decide +kernel)
  have hsol : r'.skolems = 2 ∧ r'.table.solution? m = some (.skolem 0) := by decide +kernel
  have hlater : Run.StepApart a b r' r'' :=
    ⟨.unify (.mvar m) (.var "int"), show Ty.Over _ _ ∧ Ty.Over _ _ by decide +kernel,
      by decide +kernel, rfl⟩
  have hover : a.Over r ∧ b.Over r := by decide
  have hnames : Apart (a :: b :: r.table.solutions) := by decide
  clear_value r'' r' r
  obtain ⟨hno, hequal⟩ := hreach.unify_sound hover.1 hover.2 hnames hu
  exact ⟨hu, hsol.1, hsol.2, hno m _ hsol.2, hequal r'' (.single hlater)⟩

/-! ## Most general unifiers -/

/-- What a type becomes, up to renaming, when types are put for its metavariables. No free name of
theirs is captured. -/
def Ty.under (θ : MVar → Ty) (t : Ty) : Nameless := t.read (fun m => (θ m).nameless) []

/-- The unsolved metavariables that `a` or `b` leads to. -/
def Run.Unknowns (r : Run) (a b : Ty) (m : MVar) : Prop :=
  (r.table.Reaches a m ∨ r.table.Reaches b m) ∧ r.table.solution? m = none

/-- Types for metavariables that make the pruned types equal, and mention skolem constants of `S`
only. -/
structure Unifier (r : Run) (a b : Ty) (S : Scope) (θ : MVar → Ty) : Prop where
  inScope : ∀ m, r.Unknowns a b m → ∀ id ∈ (θ m).skolems, id ∈ S
  equal : (prune a r).1.under θ = (prune b r).1.under θ

open Classical in
/-- The assignment of given types to the metavariables in `X`, the others as constants. -/
noncomputable def Assignment.on (X : MVar → Prop) (θ : MVar → Ty)
    (h : ∀ m, X m → ∀ id ∈ (θ m).skolems, id ∈ m.scope) : Assignment where
  type m := if X m then (θ m).nameless else .const (.mvar m)
  closed m := by
    split
    · exact Assignment.constant.closed_read (θ m)
    · trivial
  inScope m id hid := by
    split at hid
    · rename_i hm
      rcases Ty.mem_atoms_read hid with hid | ⟨k, -, hid⟩
      · exact h m hm id hid
      · simp at hid
    · simp at hid

section

variable {P : Ty → Prop} {B : String → Prop} {a b : Ty} {r r' : Run} {S : Scope} {θ : MVar → Ty}

/-- The metavariables in play are those of the pruned types. -/
theorem Run.unknowns_iff (ha : r.table.Acyclic) {m : MVar} :
    r.Unknowns a b m ↔ m ∈ (prune a r).1.mvars ∨ m ∈ (prune b r).1.mvars := by
  rw [mem_mvars_prune ha, mem_mvars_prune ha, ← or_and_right]
  rfl

theorem Assignment.on_of_mem {X : MVar → Prop} {m : MVar} (hm : X m)
    (h : ∀ m, X m → ∀ id ∈ (θ m).skolems, id ∈ m.scope) :
    (Assignment.on X θ h).type m = (θ m).nameless := if_pos hm

/-- A type without absent parts is inside the metavariables that it leads to. -/
theorem Ty.inside_of_prune {X : MVar → Prop} {t : Ty} (ha : r.table.Acyclic)
    (hw : (prune t r).1.Complete) (hX : ∀ m, m ∈ (prune t r).1.mvars → X m) : t.Inside r X := by
  have hplain := (prune_spec ha t).plain
  refine ⟨?_, ?_⟩
  · rw [← hplain]
    exact Ty.built_plain.2 hw
  · exact (leaves_prune ha).1 ⟨hX, fun _ _ => trivial⟩

/-- **Success yields a unifier**: the pruned metavariables. -/
theorem Narrows.unifier (hr : r.Valid P) (hr' : r'.Valid P) (hP : ∀ t, P t → t.Named B [])
    (haP : P (r.table.expand a)) (hbP : P (r.table.expand b)) (he : r.Extends r')
    (hS : ∀ m, r.Unknowns a b m → m.scope = S)
    (h : Narrows r (fun θ => θ.read a = θ.read b) r') :
    Unifier r a b S fun m => (prune (.mvar m) r').1 := by
  set τ := Assignment.constant.through hr'
  have hτ : τ.Models r'.table := Assignment.models_through hr' hP
  have htype : ∀ m, ((prune (.mvar m) r').1).nameless = τ.type m := fun m =>
    Ty.read_prune hr'.acyclic _ (.mvar m)
  have hread : ∀ t : Ty, P (r.table.expand t) →
      (prune t r).1.under (fun m => (prune (.mvar m) r').1) = τ.read t := by
    intro t ht
    simp only [Ty.under, htype]
    rw [Ty.read_prune hr.acyclic]
    exact (hτ.of_extends he).read_expand hr hP (by simp) (hP _ ht)
  constructor
  · intro m hm id hid
    have hfits : (prune (.mvar m) r').1.Fits m.scope := (leaves_prune hr'.acyclic).2 (hr'.fits_mvar m)
    rw [← hS m hm]
    exact hfits.2 id hid
  · rw [hread a haP, hread b hbP]
    exact ((h τ).1 hτ).2

/-- **A unifier is a model.** What it says of the metavariables in play can be extended to a model in
which the types mean the same. -/
theorem Unifier.exists_model (h : Unifier r a b S θ) (hr : r.Valid P)
    (hP : ∀ t, P t → t.Named B []) (haP : P (r.table.expand a)) (hbP : P (r.table.expand b))
    (hS : ∀ m, r.Unknowns a b m → m.scope = S) :
    ∃ τ : Assignment, τ.Models r.table ∧ τ.read a = τ.read b ∧
      ∀ m, r.Unknowns a b m → τ.type m = (θ m).nameless := by
  have hscope : ∀ m, r.Unknowns a b m → ∀ id ∈ (θ m).skolems, id ∈ m.scope := by
    intro m hm id hid
    rw [hS m hm]
    exact h.inScope m hm id hid
  set σ := Assignment.on (r.Unknowns a b) θ hscope
  have hread : ∀ t : Ty, P (r.table.expand t) → (∀ m ∈ (prune t r).1.mvars, r.Unknowns a b m) →
      (σ.through hr).read t = (prune t r).1.under θ := by
    intro t ht hmem
    rw [Assignment.read_through hr hP (hP _ ht), Assignment.read, ← Ty.read_prune hr.acyclic]
    exact Ty.read_congr fun m hm => Assignment.on_of_mem (hmem m hm) hscope
  refine ⟨σ.through hr, Assignment.models_through hr hP, ?_, fun m hm => ?_⟩
  · rw [hread a haP fun _ hm => (Run.unknowns_iff hr.acyclic).2 (.inl hm),
      hread b hbP fun _ hm => (Run.unknowns_iff hr.acyclic).2 (.inr hm), h.equal]
  · rw [Assignment.through_unsolved hr hm.2]
    exact Assignment.on_of_mem hm hscope

/-- **A unifier factors through what is left.** In a model of the run that unification leaves, every
metavariable in play means what its expansion means, and the others have not been touched. -/
theorem Unifier.factors {τ : Assignment} (hr' : r'.Valid P) (hP : ∀ t, P t → t.Named B [])
    (hframes : r.Frames (r.Unknowns a b) r') (hτ : τ.Models r'.table)
    (htype : ∀ m, r.Unknowns a b m → τ.type m = (θ m).nameless) {m : MVar}
    (hm : r.table.solution? m = none) : (θ m).nameless = (prune (.mvar m) r').1.under θ := by
  rw [Ty.under, Ty.read_prune hr'.acyclic]
  by_cases hX : r.Unknowns a b m
  · have hinside := hframes.inside (.mvar m) ((Ty.inside_unsolved hm).2 hX)
    have hnamed : (r'.table.expand (.mvar m)).Named B [] := by
      cases hs : r'.table.solution? m with
      | none =>
        rw [Table.expand_unsolved hs]
        trivial
      | some u =>
        rw [hr'.acyclic.expand_solved hs]
        exact hP _ (hr'.solutions m u hs).mem
    calc (θ m).nameless = τ.type m := (htype m hX).symm
      _ = (r'.table.expand (.mvar m)).read τ.type [] :=
          (hτ.read_expand (t := .mvar m) hr' hP (by simp) hnamed).symm
      _ = (r'.table.expand (.mvar m)).read (fun k => (θ k).nameless) [] :=
          Ty.read_congr fun k hk => htype k (hinside.mvars.1 k hk)
  · have hm' := (hframes.outside m hX).trans hm
    rw [Table.expand_unsolved hm']
    rfl

end

/-- **Most general unifiers.** Let no part of `a` and `b` be absent, also read through the table, and
let all unsolved metavariables that they lead to have the scope `S`. Then `unify a b` succeeds if and
only if the two have a unifier that mentions constants of `S` only; and every such unifier puts for a
metavariable what it makes of the pruned metavariable after the call. -/
theorem Reachable.unify_most_general {r : Run} (h : Reachable r) {a b : Ty} (ha : a.Over r)
    (hb : b.Over r) (hnames : Apart (a :: b :: r.table.solutions)) (hwa : (prune a r).1.Complete)
    (hwb : (prune b r).1.Complete) {S : Scope} (hS : ∀ m, r.Unknowns a b m → m.scope = S) :
    ((∃ r', unify a b r = .ok () r') ↔ ∃ θ, Unifier r a b S θ) ∧
    ∀ r', unify a b r = .ok () r' → ∀ θ, Unifier r a b S θ →
      ∀ m, r.table.solution? m = none → (θ m).nameless = (prune (.mvar m) r').1.under θ := by
  have hr := hnames.valid h.valid fun t ht => by simp [ht]
  have haP := hnames.named_expand hr (by simp : a ∈ _)
  have hbP := hnames.named_expand hr (by simp : b ∈ _)
  have hai : a.Inside r (r.Unknowns a b) :=
    Ty.inside_of_prune hr.acyclic hwa fun _ hm => (Run.unknowns_iff hr.acyclic).2 (.inl hm)
  have hbi : b.Inside r (r.Unknowns a b) :=
    Ty.inside_of_prune hr.acyclic hwb fun _ hm => (Run.unknowns_iff hr.acyclic).2 (.inr hm)
  have hexact := unify_exact (Ty.stable_named _) (fun _ h => h) hS hr ⟨ha, haP⟩ ⟨hb, hbP⟩ hai hbi
  have hmodel : ∀ θ, Unifier r a b S θ → _ := fun θ hθ =>
    hθ.exists_model hr (fun _ h => h) haP hbP hS
  refine ⟨⟨?_, ?_⟩, ?_⟩
  · rintro ⟨r', hu⟩
    obtain ⟨⟨hr', he, hnarrow⟩, -⟩ := hexact.of_ok hu
    exact ⟨_, hnarrow.unifier hr hr' (fun _ h => h) haP hbP he hS⟩
  · rintro ⟨θ, hθ⟩
    obtain ⟨τ, hτ, heq, -⟩ := hmodel θ hθ
    cases hu : unify a b r with
    | ok _ r' => exact ⟨r', rfl⟩
    | error stop r' => exact absurd heq ((hexact.of_error hu).2 τ hτ)
  · intro r' hu θ hθ m hm
    obtain ⟨τ, hτ, heq, htype⟩ := hmodel θ hθ
    obtain ⟨⟨hr', -, hnarrow⟩, hframes⟩ := hexact.of_ok hu
    exact Unifier.factors hr' (fun _ h => h) hframes ((hnarrow τ).2 ⟨hτ, heq⟩) htype hm

/-- In a run with `?0` and `?1` of the scope `[#0]`, unifying `forall x. ?0 -> x` with
`forall y. (?1 -> #0) -> y` solves `?0` by `?1 -> #0`. Putting `#0` for `?1` and `#0 -> #0` for `?0` is
an instance of that. -/
theorem unify_most_general_of_quantified :
    let S : Scope := .ofList [0]
    let m : MVar := ⟨3, 0, S⟩
    let k : MVar := ⟨4, 1, S⟩
    let a : Ty := .all 0 "x" (.arrow 0 (.mvar m) (.var "x"))
    let b : Ty := .all 0 "y" (.arrow 0 (.arrow 0 (.mvar k) (.skolem 0)) (.var "y"))
    let θ : MVar → Ty := fun j => if j = k then .skolem 0 else .arrow 0 (.skolem 0) (.skolem 0)
    let r := (Operation.newMVar S).run ((Operation.newMVar S).run (Operation.newSkolem.run {}))
    Unifier r a b S θ ∧ ∃ r', unify a b r = .ok () r' ∧
      (θ m).nameless = (prune (.mvar m) r').1.under θ ∧
      (θ k).nameless = (prune (.mvar k) r').1.under θ := by
  intro S m k a b θ r
  have hreach : Reachable r := by
    have h₀ : Reachable {} := .empty ⟨rfl, rfl, rfl⟩
    have h₁ := h₀.step .newSkolem trivial
    have h₂ := h₁.step (.newMVar S) (show Scope.Over _ _ by decide)
    exact h₂.step (.newMVar S) (show Scope.Over _ _ by decide)
  have hover : a.Over r ∧ b.Over r := by decide
  have hnames : Apart (a :: b :: r.table.solutions) := by decide
  have hcomplete : (prune a r).1.Complete ∧ (prune b r).1.Complete := by decide
  have hscopes : ∀ j ∈ (prune a r).1.mvars ++ (prune b r).1.mvars, j.scope = S := by decide
  have hunsolved : r.table.solution? m = none ∧ r.table.solution? k = none := by decide
  have hequal : (prune a r).1.under θ = (prune b r).1.under θ := by decide
  have hskolems : ∀ j, ∀ id ∈ (θ j).skolems, id ∈ S := by
    intro j
    by_cases hj : j = k <;> simp [θ, S, hj, Ty.skolems]
  have ha := hreach.valid.acyclic
  clear_value r
  have hunifier : Unifier r a b S θ := ⟨fun j _ => hskolems j, hequal⟩
  have hS : ∀ j, r.Unknowns a b j → j.scope = S := fun j hj =>
    hscopes j (List.mem_append.2 ((Run.unknowns_iff ha).1 hj))
  obtain ⟨hiff, hfactor⟩ := hreach.unify_most_general hover.1 hover.2 hnames hcomplete.1 hcomplete.2 hS
  obtain ⟨r', hu⟩ := hiff.2 ⟨θ, hunifier⟩
  exact ⟨hunifier, r', hu, hfactor r' hu θ hunifier m hunsolved.1,
    hfactor r' hu θ hunifier k hunsolved.2⟩

end RankN
