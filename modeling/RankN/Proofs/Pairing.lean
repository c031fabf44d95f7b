import RankN.Proofs.Normalization
import RankN.Proofs.Outline
import RankN.Proofs.Soundness
import RankN.Proofs.WriteOnce

/-!
# Pairing arguments with parameters

Before its arguments are looked at, an application takes a parameter off the type of its head for
each of them. `Parameters.take` does so on a type that changes on the way: quantifiers are opened at
new metavariables, solved metavariables are followed, and an unsolved one becomes a function type.

**Instances.** What is taken is an instance of the type, read in the run that is left. The
quantifiers in front of an arrow are instantiated where the arrow is needed (`Ty.OpensTo`), and
those behind the last arrow that is needed are not (`Ty.Instantiates`). A quantifier is instantiated
at what the metavariable that was allocated for it stands for.

**Settling.** An instance stays one while more metavariables are solved, because only arrows between
metavariables are filled in: no name occurs in them, so nothing is captured or replaced
(`Run.Settles`, `Ty.OpensTo.fill`).

**Targets.** One metavariable at most that was there before is solved: the one at the end of the
type's results (`Ty.target?`). Once it is, there is a parameter for every argument that is left.

Main result: `Reachable.take_pairs`.
-/

namespace RankN

open RankN.Action

/-! ## Names in types that are filled in -/

namespace Ty

variable {t new : Ty} {x : String} {σ : MVar → Ty}

/-- Replacing a name that does not occur free changes nothing. -/
theorem replace_of_not_mem (h : x ∉ t.freeNames) : t.replace x new = t := by
  induction t with
  | var y =>
    have hy : y ≠ x := fun hy => h (by simp [freeNames, hy])
    simp [hy]
  | all n y body ih =>
    by_cases hy : y = x
    · simp [hy]
    · simp [hy, ih fun hx => h (by simpa [freeNames, Ne.symm hy] using hx)]
  | arrow n p q ihp ihq =>
    simp only [freeNames, List.mem_append, not_or] at h
    simp [ihp h.1, ihq h.2]
  | app n f a ihf iha =>
    simp only [freeNames, List.mem_append, not_or] at h
    simp [ihf h.1, iha h.2]
  | _ => rfl

/-- Filling in adds no free names but those of what is filled in. -/
theorem freeNames_fill (hσ : ∀ m, (σ m).freeNames = []) (t : Ty) :
    (t.fill σ).freeNames = t.freeNames := by
  induction t with
  | all n y body ih => simp [freeNames, ih]
  | arrow n p q ihp ihq => simp [freeNames, ihp, ihq]
  | app n f a ihf iha => simp [freeNames, ihf, iha]
  | mvar m => exact hσ m
  | _ => rfl

/-- Types without free names are filled in before or after a name is replaced. -/
theorem fill_replace (hσ : ∀ m, (σ m).freeNames = []) (t : Ty) (x : String) (new : Ty) :
    (t.replace x new).fill σ = (t.fill σ).replace x (new.fill σ) := by
  induction t with
  | var y => by_cases hy : y = x <;> simp [hy]
  | all n y body ih => by_cases hy : y = x <;> simp [hy, ih]
  | arrow n p q ihp ihq => simp [ihp, ihq]
  | app n f a ihf iha => simp [ihf, iha]
  | mvar m => exact (replace_of_not_mem (by simp [hσ m])).symm
  | _ => rfl

/-! ## Instances and targets -/

/-- The second type is the first one with quantifiers in front instantiated at types in `U`. -/
inductive OpensTo (U : Ty → Prop) : Ty → Ty → Prop
  | refl (t : Ty) : OpensTo U t t
  | all {n : Nat} {x : String} {body new t : Ty} :
    U new → OpensTo U (body.replace x new) t → OpensTo U (.all n x body) t

/-- The second type is the first one with the quantifiers in front of its first `n` arrows
instantiated at types in `U`. -/
inductive Instantiates (U : Ty → Prop) : Nat → Ty → Ty → Prop
  | zero (t : Ty) : Instantiates U 0 t t
  | succ {n k : Nat} {t p q q' : Ty} :
    OpensTo U t (.arrow k p q) → Instantiates U n q q' → Instantiates U (n + 1) t (.arrow k p q')

theorem OpensTo.fill {U U' : Ty → Prop} {u : Ty} (h : t.OpensTo U u)
    (hσ : ∀ m, (σ m).freeNames = []) (hU : ∀ v, U v → U' (v.fill σ)) :
    (t.fill σ).OpensTo U' (u.fill σ) := by
  induction h with
  | refl t => exact .refl _
  | all hnew _ ih =>
    rw [fill_replace hσ] at ih
    exact .all (hU _ hnew) ih

theorem OpensTo.mono {U U' : Ty → Prop} {u : Ty} (h : t.OpensTo U u) (hU : ∀ v, U v → U' v) :
    t.OpensTo U' u := by
  induction h with
  | refl t => exact .refl t
  | all hnew _ ih => exact .all (hU _ hnew) ih

theorem Instantiates.mono {U U' : Ty → Prop} {n : Nat} {u : Ty} (h : t.Instantiates U n u)
    (hU : ∀ v, U v → U' v) : t.Instantiates U' n u := by
  induction h with
  | zero t => exact .zero t
  | succ hopens _ ih => exact .succ (hopens.mono hU) ih

/-- The metavariable at the end of the results of a type. -/
def target? : Ty → Option MVar
  | .all _ _ body => body.target?
  | .arrow _ _ q => q.target?
  | .mvar m => some m
  | _ => none

/-- A metavariable put for a name is the only new target. -/
theorem target?_replace {m k : MVar} (h : (t.replace x (.mvar k)).target? = some m) (hne : m ≠ k) :
    t.target? = some m := by
  induction t with
  | var y =>
    by_cases hy : y = x
    · simp only [hy, replace, if_true, target?, Option.some.injEq] at h
      exact absurd h.symm hne
    · simpa [hy] using h
  | all n y body ih =>
    by_cases hy : y = x
    · simpa [hy] using h
    · simp only [replace, hy, if_false, target?] at h
      exact ih h
  | arrow n p q _ ihq => exact ihq h
  | _ => exact h

theorem target?_plain (t : Ty) : t.plain.target? = t.target? := by
  induction t with
  | all n y body ih => exact ih
  | arrow n p q _ ihq => exact ihq
  | _ => rfl

/-- The type is no quantified type, no function type and no metavariable. -/
def Inapplicable : Ty → Prop
  | .all .. | .arrow .. | .mvar _ => False
  | _ => True

theorem inapplicable_plain (t : Ty) : t.plain.Inapplicable ↔ t.Inapplicable := by
  cases t <;> rfl

end Ty

/-! ## Runs that settle -/

/-- The run `r'` has all metavariables of `r`, and those that were solved since stand for types
without free names. -/
structure Run.Settles (r r' : Run) : Prop where
  tidy : r'.Tidy
  owns : ∀ m, r.table.owns m → r'.table.owns m
  fills : ∃ σ, (∀ m, (σ m).freeNames = []) ∧ r.table.Fills σ r'.table

/-- The type is what a metavariable of this scope stands for in `r'`, one that `r` does not have. No
name is free in it, so none is captured where it is put. -/
def Run.Newcomer (r : Run) (scope : Scope) (r' : Run) (u : Ty) : Prop :=
  ∃ m, ¬ r.table.owns m ∧ r'.table.owns m ∧ m.scope = scope ∧ u = (prune (.mvar m) r').1.plain ∧
    u.freeNames = []

/-- The type is a function type between two metavariables of the scope of `m` that `r` does not
have. -/
def Run.NewArrow (r : Run) (m : MVar) (r' : Run) (u : Ty) : Prop :=
  ∃ k p q, u = .arrow k (.mvar p) (.mvar q) ∧ p ≠ q ∧ p.scope = m.scope ∧ q.scope = m.scope ∧
    (¬ r.table.owns p ∧ r'.table.owns p) ∧ ¬ r.table.owns q ∧ r'.table.owns q

section

variable {r r₁ r₂ : Run} {scope : Scope} {m : MVar} {t u : Ty}

namespace Run.Settles

theorem of_expand (hr : r₁.Tidy) (howns : ∀ m, r.table.owns m → r₁.table.owns m)
    (h : ∀ t, r₁.table.expand t = r.table.expand t) : r.Settles r₁ :=
  ⟨hr, howns, .mvar, fun _ => rfl, Table.fills_mvar h⟩

theorem trans (h : r.Settles r₁) (h' : r₁.Settles r₂) : r.Settles r₂ := by
  obtain ⟨σ, hσ, hfills⟩ := h.fills
  obtain ⟨τ, hτ, hfills'⟩ := h'.fills
  refine ⟨h'.tidy, fun m hm => h'.owns m (h.owns m hm), _, fun m => ?_, hfills.trans hfills'⟩
  rw [Ty.freeNames_fill hτ, hσ]

theorem owned (h : r.Settles r₁) (ht : t.Owned r.table) : t.Owned r₁.table :=
  ht.mono h.owns fun _ h => h

/-- A metavariable that was unsolved stands for a type without free names. -/
theorem freeNames_mvar (h : r.Settles r₁) (hm : r.table.solution? m = none) :
    (r₁.table.expand (.mvar m)).freeNames = [] := by
  obtain ⟨σ, hσ, hfills⟩ := h.fills
  rw [hfills, Table.expand_unsolved hm]
  exact hσ m

theorem newcomer (h : r₁.Settles r₂) (hu : r.Newcomer scope r₁ u) {σ : MVar → Ty}
    (hr₁ : r₁.Tidy) (hσ : ∀ m, (σ m).freeNames = []) (hfills : r₁.table.Fills σ r₂.table) :
    r.Newcomer scope r₂ (u.fill σ) := by
  obtain ⟨m, hold, hnew, hscope, rfl, hnames⟩ := hu
  refine ⟨m, hold, h.owns m hnew, hscope, ?_, ?_⟩
  · rw [plain_prune hr₁.acyclic, plain_prune h.tidy.acyclic, hfills]
  · rw [Ty.freeNames_fill hσ, hnames]

end Run.Settles

/-- Instances read in a run are instances in one that it settles into. -/
theorem Ty.OpensTo.settles {a b : Ty} (hr₁ : r₁.Tidy) (h : r₁.Settles r₂)
    (hopens : (r₁.table.expand a).OpensTo (r.Newcomer scope r₁) (r₁.table.expand b)) :
    (r₂.table.expand a).OpensTo (r.Newcomer scope r₂) (r₂.table.expand b) := by
  obtain ⟨σ, hσ, hfills⟩ := h.fills
  rw [hfills, hfills]
  exact hopens.fill hσ fun u hu => h.newcomer hu hr₁ hσ hfills

/-- What is new since `r₁` is new since `r`. -/
theorem Run.Newcomer.since (h : r₁.Newcomer scope r₂ u)
    (howns : ∀ m, r.table.owns m → r₁.table.owns m) : r.Newcomer scope r₂ u := by
  obtain ⟨m, hold, hnew⟩ := h
  exact ⟨m, fun hm => hold (howns m hm), hnew⟩

theorem Run.NewArrow.since (h : r₁.NewArrow m r₂ u)
    (howns : ∀ m, r.table.owns m → r₁.table.owns m) : r.NewArrow m r₂ u := by
  obtain ⟨k, p, q, hu, hne, hp, hq, hpo, hqo⟩ := h
  exact ⟨k, p, q, hu, hne, hp, hq, ⟨fun h => hpo.1 (howns p h), hpo.2⟩,
    fun h => hqo.1 (howns q h), hqo.2⟩

theorem Run.NewArrow.later (h : r.NewArrow m r₁ u)
    (howns : ∀ m, r₁.table.owns m → r₂.table.owns m) : r.NewArrow m r₂ u := by
  obtain ⟨k, p, q, hu, hne, hp, hq, hpo, hqo⟩ := h
  exact ⟨k, p, q, hu, hne, hp, hq, ⟨hpo.1, howns p hpo.2⟩, hqo.1, howns q hqo.2⟩

namespace Run.Tidy

theorem settles_agrees (hr : r.Tidy) (h : r.Agrees r₁) : r.Settles r₁ :=
  .of_expand (h.tidy hr) (fun m hm => by rwa [h.table]) fun t => by rw [h.table]

theorem settles_newMVar (hr : r.Tidy) (scope : Scope) : r.Settles (Run.newMVar scope r).2 :=
  .of_expand (hr.newMVar scope) (r.extends_newMVar scope).owns
    (hr.acyclic.expand_congr (r.solution?_newMVar scope))

theorem settles_prune (hr : r.Tidy) (t : Ty) : r.Settles (RankN.prune t r).2 :=
  .of_expand (hr.prune t) (fun m hm => ((prune_spec hr.acyclic t).shortens.owns m).2 hm)
    (expand_prune hr.acyclic t)

theorem settles_solved (hr : r.Tidy) (ho : r.table.owns m) (hm : r.table.solution? m = none)
    (ht : t.Owned r.table) (hocc : m ∉ (r.table.expand t).mvars)
    (hnames : (r.table.expand t).freeNames = []) : r.Settles (r.solved m t) := by
  refine ⟨hr.solved ho hm ht hocc, (r.extends_solved hm t).owns, _, fun k => ?_,
    hr.acyclic.expand_write ho hm hocc⟩
  by_cases hk : k = m
  · simpa [hk] using hnames
  · simp [hk, Ty.freeNames]

end Run.Tidy

end

/-! ## Exposing a function type -/

/-- A function type was exposed in the type `t`. -/
structure Run.Exposes (r : Run) (scope : Scope) (t : Ty) (ex : Exposed) (r' : Run) : Prop where
  settles : r.Settles r'
  keeps : ∀ m u, r.table.solution? m = some u → r'.table.solution? m = some u
  rest : ex.rest.Owned r'.table
  opens : (r'.table.expand t).OpensTo (r.Newcomer scope r')
    (r'.table.expand (.arrow 0 ex.param ex.rest))
  target : ∀ m, r.table.owns m → (r'.table.expand ex.rest).target? = some m →
    (r.table.expand t).target? = some m
  /-- What was solved is the target, and it becomes a function type to an unsolved metavariable. -/
  solves : ∀ m u, r.table.owns m → r.table.solution? m = none → r'.table.solution? m = some u →
    (r.table.expand t).target? = some m ∧ r.NewArrow m r' u ∧
      ∃ q, ex.rest = .mvar q ∧ r'.table.solution? q = none

/-- No function type could be exposed in the type `t`, only `type`. -/
structure Run.Rejects (r : Run) (scope : Scope) (t type : Ty) (r' : Run) : Prop where
  settles : r.Settles r'
  unsolved : ∀ m, r'.table.solution? m = none ↔ r.table.solution? m = none
  opens : (r'.table.expand t).OpensTo (r.Newcomer scope r') type.plain
  normal : type.Normal r'.table
  inapplicable : type.Inapplicable

section

variable {r r₁ r₂ : Run} {scope : Scope} {m : MVar} {t : Ty} {args : List Expr}

/-- Allocating a metavariable. -/
theorem ensures_newMVar_settles {ε α : Type} {f : MVar → Action ε α} {Q : α → Run → Prop}
    {E : Stop ε → Run → Prop} (hr : r.Tidy)
    (h : ∀ m r₁, r.Adds scope m r₁ → r.Settles r₁ → (f m).Ensures r₁ Q E) :
    (liftM (Run.newMVar scope) >>= f).Ensures r Q E :=
  ensures_bind.2 (ensures_lift.2 (h _ _ (hr.adds_newMVar scope) (hr.settles_newMVar scope)))

/-- The type `t` is opened at a new metavariable to become `t'`. -/
structure Run.OpensAt (r : Run) (scope : Scope) (t t' : Ty) (r' : Run) : Prop where
  settles : r.Settles r'
  solution : ∀ m, r'.table.solution? m = r.table.solution? m
  owned : t'.Owned r'.table
  target : ∀ m, r.table.owns m → (r'.table.expand t').target? = some m →
    (r.table.expand t).target? = some m
  opens : ∀ r'' u, r'.Settles r'' → (r''.table.expand t').OpensTo (r'.Newcomer scope r'') u →
    (r''.table.expand t).OpensTo (r.Newcomer scope r'') u

/-- A quantified type is opened at a new metavariable. -/
theorem ensures_opensAt {n : Nat} {x : String} {body : Ty} (hr : r.Tidy)
    (ht : (Ty.all n x body).Owned r.table) {α : Type} {f : Ty → Solve α} {Q : α → Run → Prop}
    {E : Stop TypeError → Run → Prop}
    (h : ∀ t' r', r.OpensAt scope (.all n x body) t' r' → (f t').Ensures r' Q E) :
    (do
      let m ← Run.newMVar scope
      let t ← openAll x body (.mvar m)
      f t : Solve α).Ensures r Q E := by
  refine ensures_newMVar_settles hr fun m r₁ hadds hsettles => ?_
  refine ensures_bind.2 (ensures_lift.2 (h _ _ ?_))
  have hagrees : r₁.Agrees (openAll x body (.mvar m) r₁).2 :=
    (subst_restamped x (.mvar m) body r₁).agrees
  have hexpand : (openAll x body (.mvar m) r₁).2.table.expand (openAll x body (.mvar m) r₁).1 =
      (r.table.expand body).replace x (.mvar m) := by
    rw [hagrees.table]
    refine (expand_subst hsettles.tidy.acyclic x (.mvar m) body).trans ?_
    rw [Table.expand_unsolved hadds.unsolved, hr.acyclic.expand_congr hadds.solution]
  have howned : (openAll x body (.mvar m) r₁).1.Owned r₁.table :=
    leaves_subst hsettles.tidy.solutions (by simpa using hadds.owned)
      (hsettles.owned (t := body) ht)
  have hsettles' := hsettles.tidy.settles_agrees hagrees
  generalize (openAll x body (.mvar m) r₁).1 = t' at hexpand howned ⊢
  generalize (openAll x body (.mvar m) r₁).2 = r₂ at hexpand hagrees hsettles' ⊢
  have hsol : ∀ k, r₂.table.solution? k = r.table.solution? k := by
    intro k
    rw [hagrees.table, hadds.solution]
  refine ⟨hsettles.trans hsettles', hsol, hsettles'.owned howned, fun k hk htarget => ?_,
    fun r₃ u hr₃ hopens => ?_⟩
  · rw [hexpand] at htarget
    exact Ty.target?_replace (t := r.table.expand body) htarget (hadds.ne_of_owns hk)
  · -- What was put for the name is by now what the new metavariable stands for.
    have hm : r₂.table.solution? m = none := by rw [hagrees.table, hadds.unsolved]
    obtain ⟨σ, hσ, hfills⟩ := hr₃.fills
    rw [hfills, hexpand, Ty.fill_replace hσ, ← Table.expand_unsolved hm, ← hfills,
      ← hr.acyclic.expand_congr hsol, ← hfills] at hopens
    refine .all ⟨m, hadds.fresh, ?_, hadds.scope, ?_, hr₃.freeNames_mvar hm⟩
      (hopens.mono fun v hv => hv.since (hsettles.trans hsettles').owns)
    · exact hr₃.owns m (hsettles'.owns m hadds.owned)
    · exact (plain_prune hr₃.tidy.acyclic _).symm

theorem Run.OpensAt.exposes {t' : Ty} {ex : Exposed} (h : r.OpensAt scope t t' r₁)
    (hex : r₁.Exposes scope t' ex r₂) : r.Exposes scope t ex r₂ where
  settles := h.settles.trans hex.settles
  keeps m u hu := hex.keeps m u ((h.solution m).trans hu)
  rest := hex.rest
  opens := h.opens r₂ _ hex.settles hex.opens
  target m hm htarget := h.target m hm (hex.target m (h.settles.owns m hm) htarget)
  solves m u hm hnone hu := by
    obtain ⟨htarget, harrow, hrest⟩ :=
      hex.solves m u (h.settles.owns m hm) ((h.solution m).trans hnone) hu
    exact ⟨h.target m hm htarget, harrow.since h.settles.owns, hrest⟩

theorem Run.OpensAt.rejects {t' type : Ty} (h : r.OpensAt scope t t' r₁)
    (hrej : r₁.Rejects scope t' type r₂) : r.Rejects scope t type r₂ where
  settles := h.settles.trans hrej.settles
  unsolved m := by rw [hrej.unsolved, h.solution]
  opens := h.opens r₂ _ hrej.settles hrej.opens
  normal := hrej.normal
  inapplicable := hrej.inapplicable

/-- The action exposes a function type, or rejects the type with the arguments that are left, unless
its steps run out. -/
def Action.Pairs (x : Solve Exposed) (r : Run) (scope : Scope) (t : Ty) (args : List Expr) : Prop :=
  x.Ensures r (r.Exposes scope t) fun stop r' =>
    stop = .fault .cyclic ∨
      ∃ type, stop = .error (.notFunction type args) ∧ r.Rejects scope t type r'

/-- What an action does with a type that another one leads to, it does with that one. -/
theorem Action.Pairs.of_next {x : Solve Exposed} {t' : Ty} (h : x.Pairs r₁ scope t' args)
    (hok : ∀ ex r₂, r₁.Exposes scope t' ex r₂ → r.Exposes scope t ex r₂)
    (hrej : ∀ type r₂, r₁.Rejects scope t' type r₂ → r.Rejects scope t type r₂) :
    x.Ensures r₁ (r.Exposes scope t) fun stop r' =>
      stop = .fault .cyclic ∨
        ∃ type, stop = .error (.notFunction type args) ∧ r.Rejects scope t type r' := by
  refine Ensures.mono h hok fun stop r₂ hstop => ?_
  rcases hstop with hstop | ⟨type, hstop, h⟩
  · exact .inl hstop
  · exact .inr ⟨type, hstop, hrej type r₂ h⟩

/-- A solved metavariable exposes what its solution does. -/
theorem Run.Exposes.of_solution {u : Ty} {ex : Exposed} (hr : r.Tidy)
    (hu : r.table.solution? m = some u) (h : r.Exposes scope u ex r₁) :
    r.Exposes scope (.mvar m) ex r₁ := by
  have hexpand := hr.acyclic.expand_solved hu
  have hexpand' := h.settles.tidy.acyclic.expand_solved (h.keeps m u hu)
  exact ⟨h.settles, h.keeps, h.rest, hexpand' ▸ h.opens, hexpand ▸ h.target, hexpand ▸ h.solves⟩

theorem Run.Rejects.of_solution {u type : Ty} (hr : r.Tidy)
    (hu : r.table.solution? m = some u) (h : r.Rejects scope u type r₁) :
    r.Rejects scope (.mvar m) type r₁ := by
  obtain ⟨σ, -, hfills⟩ := h.settles.fills
  have hexpand : r₁.table.expand (.mvar m) = r₁.table.expand u := by
    rw [hfills, hfills, hr.acyclic.expand_solved hu]
  exact ⟨h.settles, h.unsolved, hexpand ▸ h.opens, h.normal, h.inapplicable⟩

/-- An unsolved metavariable is solved by an arrow between two new ones. -/
theorem exposeMVar_pairs (hr : r.Tidy) (ho : r.table.owns m) (hm : r.table.solution? m = none)
    (scope : Scope) (args : List Expr) :
    (exposeMVar m).Pairs r scope (.mvar m) args := by
  refine ensures_newMVar_settles hr fun p r₁ hp hgp => ?_
  refine ensures_newMVar_settles hgp.tidy fun q r₂ hq hgq => ?_
  refine ensures_newArrow_bind fun n r₃ hag => ?_
  have hg := (hgp.trans hgq).trans (hgq.tidy.settles_agrees hag)
  have hmp : m ≠ p := hp.ne_of_owns ho
  have hmq : m ≠ q := hq.ne_of_owns (hgp.owns m ho)
  have hpq : p ≠ q := hq.ne_of_owns hp.owned
  have hsol : ∀ k, r₃.table.solution? k = r.table.solution? k := fun k => by
    rw [hag.table, hq.solution, hp.solution]
  have hpu : r₃.table.solution? p = none := by rw [hag.table, hq.solution, hp.unsolved]
  have hqu : r₃.table.solution? q = none := by rw [hag.table, hq.unsolved]
  have hpo : r₃.table.owns p := by
    rw [hag.table]
    exact hgq.owns p hp.owned
  have hqo : r₃.table.owns q := by rw [hag.table]; exact hq.owned
  have hexpand : r₃.table.expand (.arrow n (.mvar p) (.mvar q)) = .arrow 0 (.mvar p) (.mvar q) := by
    rw [Table.expand_arrow, Table.expand_unsolved hpu, Table.expand_unsolved hqu]
  refine ensures_bind.2 (ensures_assign (hg.owns m ho) ((hsol m).trans hm) (fun h => by cases h)
    fun _ => ?_)
  have hsolved := hg.tidy.settles_solved (t := .arrow n (.mvar p) (.mvar q)) (hg.owns m ho)
    ((hsol m).trans hm) (by simpa [Ty.Owned] using ⟨hpo, hqo⟩) (by simp [hexpand, hmp, hmq])
    (by simp [hexpand, Ty.freeNames])
  have hqu' : (r₃.solved m (.arrow n (.mvar p) (.mvar q))).table.solution? q = none :=
    (Table.solution?_write_of_ne _ hmq.symm _).trans hqu
  have hqfresh : ¬ r.table.owns q := fun h => hq.fresh (hgp.owns q h)
  show r.Exposes scope (.mvar m) ⟨.mvar p, .mvar q⟩ (r₃.solved m (.arrow n (.mvar p) (.mvar q)))
  refine ⟨hg.trans hsolved, fun k u hu => ?_, ?_, ?_, fun k hk htarget => ?_,
    fun k u hk hnone hu => ?_⟩
  · exact (r₃.extends_solved ((hsol m).trans hm) _).solution k u ((hsol k).trans hu)
  · exact Ty.leaves_mvar.2 (hsolved.owns q hqo)
  · rw [hsolved.tidy.acyclic.expand_solved (Table.solution?_write_self (hg.owns m ho) _)]
    exact .refl _
  · rw [Table.expand_unsolved hqu', Ty.target?, Option.some.injEq] at htarget
    exact absurd (htarget ▸ hk) hqfresh
  · rcases Run.solution?_solved (hg.owns m ho) hu with ⟨rfl, rfl⟩ | hu
    · refine ⟨?_, ⟨n, p, q, rfl, hpq, hp.scope, hq.scope, ⟨hp.fresh, hsolved.owns p hpo⟩, hqfresh,
        hsolved.owns q hqo⟩, q, rfl, hqu'⟩
      rw [Table.expand_unsolved hm, Ty.target?]
    · rw [hsol, hnone] at hu
      cases hu

/-- **Exposing** opens the quantifiers in front of a function type, or finds none. -/
theorem exposeWithin_pairs (args : List Expr) (n : Nat) (hr : r.Tidy) (ht : t.Owned r.table) :
    (exposeWithin scope args n t).Pairs r scope t args := by
  induction n generalizing t r with
  | zero =>
    rw [exposeWithin]
    exact .inl rfl
  | succ n ih =>
    refine ensures_exposeWithin ?_ ?_ ?_ ?_ ?_
    · intro k x body htype
      subst htype
      refine ensures_opensAt hr ht fun t' r₁ h => ?_
      exact (ih h.settles.tidy h.owned).of_next (fun _ _ => h.exposes) fun _ _ => h.rejects
    · intro k p q htype
      subst htype
      refine ⟨hr.settles_agrees ⟨rfl, rfl, rfl⟩, fun _ _ h => h, (Ty.leaves_arrow.1 ht).2, .refl _,
        fun _ _ h => h, fun m u _ hnone hu => ?_⟩
      rw [hnone] at hu
      cases hu
    · intro m u htype hu
      subst htype
      exact (ih hr (hr.solutions m u hu)).of_next (fun _ _ h => h.of_solution hr hu)
        fun _ _ h => h.of_solution hr hu
    · intro m htype hm
      subst htype
      exact exposeMVar_pairs hr (Ty.leaves_mvar.1 ht) hm scope args
    · intro hall harrow hmvar
      have hshort := (prune_spec hr.acyclic t).shortens
      refine .inr ⟨_, rfl, hr.settles_prune t, hshort.unsolved, ?_, ?_, ?_⟩
      · rw [expand_prune hr.acyclic, ← plain_prune hr.acyclic]
        exact .refl _
      · exact hshort.normal.2 (normal_prune hr.acyclic t)
      · rw [← Ty.inapplicable_plain, plain_prune hr.acyclic]
        cases t with
        | all k x body => exact absurd rfl (hall k x body)
        | arrow k p q => exact absurd rfl (harrow k p q)
        | mvar m => exact absurd rfl (hmvar m)
        | _ => exact trivial

theorem expose_pairs (scope : Scope) (args : List Expr) (hr : r.Tidy) (ht : t.Owned r.table) :
    (expose scope args t).Ensures r (r.Exposes scope t) fun stop r' =>
      ∃ type, stop = .error (.notFunction type args) ∧ r.Rejects scope t type r' := by
  have hpairs : (expose scope args t).Pairs r scope t args :=
    ensures_bind.2 (ensures_get.2 (exposeWithin_pairs args _ hr ht))
  refine (Ensures.and hpairs (expose_finishes hr.inOrder args t)).mono (fun _ _ h => h.1) ?_
  rintro stop r' ⟨hstop | hrej, hfinishes⟩
  · exact absurd hstop hfinishes
  · exact hrej

end

/-! ## Taking parameters -/

/-- A parameter of each of the given types was taken off the type `t`, and `ret` is left. -/
structure Run.Supplies (r : Run) (scope : Scope) (t : Ty) (types : List Ty) (ret : Ty) (r' : Run) :
    Prop where
  settles : r.Settles r'
  keeps : ∀ m u, r.table.solution? m = some u → r'.table.solution? m = some u
  instantiates : (r'.table.expand t).Instantiates (r.Newcomer scope r') types.length
    (.arrows (types.map r'.table.expand) (r'.table.expand ret))
  solves : ∀ m u, r.table.owns m → r.table.solution? m = none → r'.table.solution? m = some u →
    (r.table.expand t).target? = some m ∧ r.NewArrow m r' u

/-- After parameters of the given types no more could be taken off the type `t`: there is only
`type`. -/
structure Run.Exhausts (r : Run) (scope : Scope) (t : Ty) (types : List Ty) (type : Ty) (r' : Run) :
    Prop where
  settles : r.Settles r'
  unsolved : ∀ m, r.table.owns m → r.table.solution? m = none → r'.table.solution? m = none
  instantiates : ∃ left, left.OpensTo (r.Newcomer scope r') type.plain ∧
    (r'.table.expand t).Instantiates (r.Newcomer scope r') types.length
      (.arrows (types.map r'.table.expand) left)
  normal : type.Normal r'.table
  inapplicable : type.Inapplicable

/-- How taking parameters ends: there is one for every argument, or they are exhausted before. -/
inductive Run.Takes (r : Run) (scope : Scope) (t : Ty) {args : List Expr} :
    Parameters args × Run → Prop
  | supplied {pending : List Obligation} {ret : Ty} {r' : Run} (hm : pending.map (·.arg) <+: args) :
    pending.map (·.arg) = args → r.Supplies scope t (pending.map (·.type)) ret r' →
    Takes r scope t (⟨pending, .ok ret, hm⟩, r')
  | exhausted {pending : List Obligation} {type : Ty} {r' : Run}
    (hm : pending.map (·.arg) <+: args) (rest : List Expr) :
    args = pending.map (·.arg) ++ rest → rest ≠ [] →
    r.Exhausts scope t (pending.map (·.type)) type r' →
    Takes r scope t (⟨pending, .error (.error (.notFunction type rest)), hm⟩, r')

section

variable {r r₁ r₂ : Run} {scope : Scope} {m : MVar} {t : Ty} {ex : Exposed} {types : List Ty}

/-- A type is exposed before the parameters are taken that its results have. -/
theorem Run.Exposes.instantiates (hex : r.Exposes scope t ex r₁) (hg : r₁.Settles r₂) {n : Nat}
    {u : Ty} (h : (r₂.table.expand ex.rest).Instantiates (r₁.Newcomer scope r₂) n u) :
    (r₂.table.expand t).Instantiates (r.Newcomer scope r₂) (n + 1)
      (.arrow 0 (r₂.table.expand ex.param) u) :=
  .succ (hex.opens.settles hex.settles.tidy hg) (h.mono fun _ hv => hv.since hex.settles.owns)

theorem Run.Exposes.supplies {ret : Ty} (hex : r.Exposes scope t ex r₁)
    (h : r₁.Supplies scope ex.rest types ret r₂) :
    r.Supplies scope t (ex.param :: types) ret r₂ where
  settles := hex.settles.trans h.settles
  keeps m u hu := h.keeps m u (hex.keeps m u hu)
  instantiates := hex.instantiates h.settles h.instantiates
  solves m u hm hnone hu := by
    cases hs : r₁.table.solution? m with
    | none =>
      obtain ⟨htarget, harrow⟩ := h.solves m u (hex.settles.owns m hm) hs hu
      exact ⟨hex.target m hm htarget, harrow.since hex.settles.owns⟩
    | some v =>
      obtain rfl : v = u := Option.some.inj ((h.keeps m v hs).symm.trans hu)
      obtain ⟨htarget, harrow, -⟩ := hex.solves m v hm hnone hs
      exact ⟨htarget, harrow.later h.settles.owns⟩

theorem take_cons_ok {arg : Expr} {args : List Expr}
    (h : expose scope (arg :: args) t r = .ok ex r₁) :
    Parameters.take scope t (arg :: args) r =
      ((Parameters.take scope ex.rest args r₁).1.cons arg ex.param,
        (Parameters.take scope ex.rest args r₁).2) := by
  simp only [Parameters.take, h]
  rfl

theorem take_cons_error {arg : Expr} {args : List Expr} {stop : Stop TypeError}
    (h : expose scope (arg :: args) t r = .error stop r₁) :
    Parameters.take scope t (arg :: args) r = (⟨[], .error stop, List.nil_prefix⟩, r₁) := by
  simp only [Parameters.take, h]

/-- Off an unsolved metavariable any number of parameters can be taken. -/
theorem take_unsolved (args : List Expr) (hr : r.Tidy) (ho : r.table.owns m)
    (hm : r.table.solution? m = none) :
    ∃ ret, (Parameters.take scope (.mvar m) args r).1.result = .ok ret := by
  induction args generalizing r m with
  | nil => exact ⟨.mvar m, rfl⟩
  | cons arg args ih =>
    have hexpose := expose_pairs scope (arg :: args) hr (Ty.leaves_mvar.2 ho)
    cases hex : expose scope (arg :: args) (.mvar m) r with
    | error stop r₁ =>
      obtain ⟨type, -, hrej⟩ := hexpose.of_error hex
      have hopens := hrej.opens
      have hother := (Ty.inapplicable_plain type).2 hrej.inapplicable
      rw [Table.expand_unsolved ((hrej.unsolved m).2 hm)] at hopens
      generalize type.plain = u at hopens hother
      cases hopens
      exact absurd hother id
    | ok ex r₁ =>
      have hok := hexpose.of_ok hex
      have hopens := hok.opens
      rw [take_cons_ok hex]
      cases hs : r₁.table.solution? m with
      | none =>
        rw [Table.expand_unsolved hs] at hopens
        cases hopens
      | some u =>
        obtain ⟨-, -, q, hrest, hq⟩ := hok.solves m u ho hm hs
        have hqo := hok.rest
        rw [hrest] at hqo ⊢
        exact ih hok.settles.tidy (Ty.leaves_mvar.1 hqo) hq

theorem Run.Exposes.exhausts {type : Ty} {args : List Expr} {stop : Stop TypeError}
    (hex : r.Exposes scope t ex r₁)
    (hstop : (Parameters.take scope ex.rest args r₁).1.result = .error stop)
    (h : r₁.Exhausts scope ex.rest types type r₂) :
    r.Exhausts scope t (ex.param :: types) type r₂ where
  settles := hex.settles.trans h.settles
  unsolved m hm hnone := by
    refine h.unsolved m (hex.settles.owns m hm) ?_
    cases hs : r₁.table.solution? m with
    | none => rfl
    | some u =>
      -- The rest would be an unsolved metavariable, which is never exhausted.
      obtain ⟨-, -, q, hrest, hq⟩ := hex.solves m u hm hnone hs
      have hqo := hex.rest
      rw [hrest] at hqo hstop
      obtain ⟨ret, hret⟩ := take_unsolved args hex.settles.tidy (Ty.leaves_mvar.1 hqo) hq
      rw [hstop] at hret
      cases hret
  instantiates := by
    obtain ⟨left, hopens, hinst⟩ := h.instantiates
    exact ⟨left, hopens.mono fun _ hv => hv.since hex.settles.owns,
      hex.instantiates h.settles hinst⟩
  normal := h.normal
  inapplicable := h.inapplicable

/-- **Taking parameters.** By induction on the arguments, one exposed function type for each. -/
theorem take_takes (args : List Expr) (hr : r.Tidy) (ht : t.Owned r.table) :
    r.Takes scope t (Parameters.take scope t args r) := by
  induction args generalizing r t with
  | nil =>
    refine .supplied _ rfl ⟨hr.settles_agrees ⟨rfl, rfl, rfl⟩, fun _ _ h => h, .zero _, ?_⟩
    intro m u _ hnone hu
    rw [hnone] at hu
    cases hu
  | cons arg args ih =>
    have hexpose := expose_pairs scope (arg :: args) hr ht
    cases hex : expose scope (arg :: args) t r with
    | error stop r₁ =>
      obtain ⟨type, rfl, hrej⟩ := hexpose.of_error hex
      rw [take_cons_error hex]
      refine .exhausted _ (arg :: args) rfl (List.cons_ne_nil _ _)
        ⟨hrej.settles, fun m _ hm => (hrej.unsolved m).2 hm, ?_, hrej.normal, hrej.inapplicable⟩
      exact ⟨_, hrej.opens, .zero _⟩
    | ok ex r₁ =>
      have hok := hexpose.of_ok hex
      have htake := ih hok.settles.tidy hok.rest
      rw [take_cons_ok hex]
      generalize hres : Parameters.take scope ex.rest args r₁ = res at htake ⊢
      cases htake with
      | supplied _ hargs h => exact .supplied _ (congrArg (arg :: ·) hargs) (hok.supplies h)
      | exhausted _ rest hargs hne h =>
        exact .exhausted _ rest (congrArg (arg :: ·) hargs) hne
          (hok.exhausts (congrArg (·.1.result) hres) h)

end

/-- The forms of the parameters can be read off the table. -/
theorem forms_pending {pending : List Obligation} {r : Run} (hr : r.Tidy) :
    (pending.map fun o => (prune o.type r).1.plain) = (pending.map (·.type)).map r.table.expand := by
  rw [List.map_map]
  exact List.map_congr_left fun o _ => plain_prune hr.acyclic o.type

/-- **Arguments are paired with parameters.** In every reachable run, for every scope, every type
over metavariables of the run and all arguments, let `form u` be the pruned form of `u` in the run
that is left.

If parameters are found, they are paired with all arguments in order, and the form of the type, with
the quantifiers in front of so many arrows instantiated, is the function type from the forms of the
parameters to that of what is left.

Otherwise the error says that a type is no function type, with the arguments that are left, which
are some; the arguments before are paired with parameters as above. The type in the error is
pruned. It comes about from what is left by instantiating quantifiers, and it is no quantified
type, no function type and no metavariable.

Either way, a metavariable of the run that has been solved is the target of the type, and what it
is solved by is an arrow between two new metavariables of its scope. -/
theorem Reachable.take_pairs {r : Run} (hr : Reachable r) (scope : Scope) {t : Ty}
    (ht : t.Owned r.table) (args : List Expr) :
    let ps := (Parameters.take scope t args r).1
    let r' := (Parameters.take scope t args r).2
    let form := fun u => (prune u r').1.plain
    let types := ps.pending.map fun o => form o.type
    (∀ ret, ps.result = .ok ret →
      ps.pending.map (·.arg) = args ∧
      (form t).Instantiates (r.Newcomer scope r') args.length (.arrows types (form ret))) ∧
    (∀ stop, ps.result = .error stop → ∃ done rest left type,
      stop = .error (.notFunction type rest) ∧ rest ≠ [] ∧ args = done ++ rest ∧
      ps.pending.map (·.arg) = done ∧
      (form t).Instantiates (r.Newcomer scope r') done.length (.arrows types left) ∧
      left.OpensTo (r.Newcomer scope r') type.plain ∧
      (prune type r').1 = type ∧ type.Inapplicable) ∧
    ∀ m u, r.table.owns m → r.table.solution? m = none → r'.table.solution? m = some u →
      (prune t r).1.target? = some m ∧ r.NewArrow m r' u := by
  intro ps r' form types
  have htidy := hr.valid.tidy
  have htarget : (prune t r).1.target? = (r.table.expand t).target? := by
    rw [← Ty.target?_plain, plain_prune htidy.acyclic]
  have htakes : r.Takes scope t (ps, r') := take_takes args htidy ht
  clear_value ps r'
  rw [htarget]
  cases htakes with
  | supplied _ hargs h =>
    refine ⟨fun ret' hret => ?_, fun stop hstop => (by cases hstop), h.solves⟩
    cases hret
    have hinst := h.instantiates
    rw [List.length_map, ← List.length_map (·.arg), hargs] at hinst
    refine ⟨hargs, ?_⟩
    simp only [types, form, forms_pending h.settles.tidy, plain_prune h.settles.tidy.acyclic]
    exact hinst
  | @exhausted pending type _ _ rest hargs hne h =>
    refine ⟨fun ret hret => (by cases hret), fun stop hstop => ?_, fun m u hm hnone hu => ?_⟩
    · obtain ⟨left, hopens, hinst⟩ := h.instantiates
      cases hstop
      rw [List.length_map, ← List.length_map (·.arg)] at hinst
      refine ⟨_, rest, left, type, rfl, hne, hargs, rfl, ?_, hopens,
        by rw [prune_unsolved h.normal], h.inapplicable⟩
      simp only [types, form, forms_pending h.settles.tidy, plain_prune h.settles.tidy.acyclic]
      exact hinst
    · rw [h.unsolved m hm hnone] at hu
      cases hu

/-- With `?0` and `?1` of the scope `[#0]` and `?1 := ∀ b. b → ?0`, three parameters are taken off
`∀ a. a → ?1`. Both quantifiers are opened, and `?0`, the target, becomes an arrow between two new
metavariables. Off `∀ a. a → List ?1` one can be taken, and what is left is `List (∀ b. b → ?0)`. -/
theorem take_pairs_nested_quantifiers :
    let scope := Scope.ofList [0]
    let m : MVar := ⟨3, 0, scope⟩
    let k : MVar := ⟨4, 1, scope⟩
    let p : MVar := ⟨11, 4, scope⟩
    let q : MVar := ⟨12, 5, scope⟩
    let r := (Operation.solve k (.all 0 "b" (.arrow 0 (.var "b") (.mvar m)))).run
      ((Operation.newMVar scope).run ((Operation.newMVar scope).run (Operation.newSkolem.run {})))
    let t : Ty := .all 0 "a" (.arrow 0 (.var "a") (.mvar k))
    let list : Ty := .all 0 "a" (.arrow 0 (.var "a") (.app 0 (.var "List") (.mvar k)))
    let type : Ty := .app 8 (.var "List") (.all 7 "b" (.arrow 6 (.var "b") (.mvar m)))
    let args : List Expr := [.var "x", .var "y", .var "z"]
    let ps := (Parameters.take .empty t args r).1
    let r' := (Parameters.take .empty t args r).2
    let stuck := (Parameters.take .empty list args r).1
    ps.result = .ok (.mvar q) ∧
      ps.pending.map (·.arg) = args ∧
      ((prune t r').1.plain).Instantiates (r.Newcomer .empty r') 3
        (.arrows (ps.pending.map fun o => (prune o.type r').1.plain)
          (prune (.mvar q) r').1.plain) ∧
      r'.table.solution? m = some (.arrow 13 (.mvar p) (.mvar q)) ∧
      (prune t r).1.target? = some m ∧ r.NewArrow m r' (.arrow 13 (.mvar p) (.mvar q)) ∧
      stuck.result = .error (.error (.notFunction type [.var "y", .var "z"])) ∧
      stuck.pending.map (·.arg) = [.var "x"] ∧ type.Inapplicable := by
  intro scope m k p q r t list type args ps r' stuck
  have hreach : Reachable r := by
    have h₀ : Reachable {} := .empty ⟨rfl, rfl, rfl⟩
    have h₁ := h₀.step .newSkolem trivial
    have h₂ := h₁.step (.newMVar scope) (show Scope.Over _ scope by decide)
    have h₃ := h₂.step (.newMVar scope) (show Scope.Over _ scope by decide)
    exact h₃.step (.solve k (.all 0 "b" (.arrow 0 (.var "b") (.mvar m))))
      (show _ ∧ Ty.Over _ _ by decide)
  have hm : r.table.owns m ∧ r.table.solution? m = none := by decide +kernel
  have hk : r.table.owns k := by decide +kernel
  have hresult : ps.result = .ok (.mvar q) := by decide +kernel
  have hsolved : r'.table.solution? m = some (.arrow 13 (.mvar p) (.mvar q)) := by decide +kernel
  have hstuck : stuck.result = .error (.error (.notFunction type [.var "y", .var "z"])) := by
    decide +kernel
  have ht : t.Owned r.table := ⟨fun j hj => (List.mem_singleton.1 hj) ▸ hk, fun _ _ => trivial⟩
  have hlist : list.Owned r.table :=
    ⟨fun j hj => (List.mem_singleton.1 hj) ▸ hk, fun _ _ => trivial⟩
  obtain ⟨hok, -, hsolves⟩ := hreach.take_pairs .empty ht args
  obtain ⟨hargs, hinst⟩ := hok _ hresult
  obtain ⟨htarget, harrow⟩ := hsolves m _ hm.1 hm.2 hsolved
  obtain ⟨-, hfail, -⟩ := hreach.take_pairs .empty hlist args
  obtain ⟨done, rest, left, type', hstop, -, hsplit, hdone, -, -, -, htype⟩ := hfail _ hstuck
  obtain ⟨rfl, rfl⟩ : type = type' ∧ [.var "y", .var "z"] = rest := by simpa using hstop
  refine ⟨hresult, hargs, hinst, hsolved, htarget, harrow, hstuck, ?_, htype⟩
  exact hdone.trans (List.append_cancel_right (show done ++ _ = [.var "x"] ++ _ from hsplit.symm))

end RankN
