import RankN.Proofs.Labels
import RankN.Proofs.Unification

/-!
# Unification of rigid types

A *rigid* type is built from names, quantifiers, arrows, applications and skolem constants: there is
nothing in it to solve. On rigid types unification compares and does nothing else.

**Any table.** Where a type has no solved metavariable, opening a quantifier replaces a name and
reads nothing from the table (`plain_subst`), and pruning changes nothing (`prune_unsolved`). So
what is said here needs no valid run, and the solutions that are there may even be cyclic.

**Any names.** Names are compared as they are written, and bound ones are replaced by a constant
that occurs nowhere yet before they are compared. Therefore a name that is bound twice, or bound in
one type and free in the other, is told apart from what it hides.

Main result: `unify_decides_alphaEq`. Unification of rigid types decides equality up to renaming.
-/

namespace RankN

open RankN.Action

/-! ## Types without solved metavariables -/

section

variable {enter : Ty → StateM Run Ty} {x : String} {new t : Ty} {r : Run}

theorem plain_substWith (h : ∀ m ∈ t.mvars, r.table.solution? m = none) :
    (substWith enter x new t r).1.plain = t.plain.replace x new.plain ∧
      r.Restamped (substWith enter x new t r).2 := by
  induction t generalizing r with
  | var y =>
    rw [substWith_var]
    refine ⟨?_, .refl r⟩
    by_cases hy : y = x
    · simp [hy, Ty.plain]
    · simp [hy, Ty.plain]
  | all n y body ih =>
    by_cases hy : y = x
    · subst hy
      rw [substWith_all_self]
      exact ⟨by simp [Ty.plain], .refl r⟩
    · obtain ⟨hbody, hr⟩ := ih h
      rw [substWith_all_of_ne n hy]
      refine ⟨?_, hr.trans ⟨_, rfl⟩⟩
      simp only [Ty.plain, Ty.replace, hy, if_false, ← hbody]
      rfl
  | arrow n p q ihp ihq =>
    simp only [Ty.mvars, List.forall_mem_append] at h
    obtain ⟨hp, hr⟩ := ihp h.1
    obtain ⟨hq, hr'⟩ := ihq (hr.table ▸ h.2)
    rw [substWith_arrow]
    refine ⟨?_, (hr.trans hr').trans ⟨_, rfl⟩⟩
    simp only [Ty.plain, Ty.replace, ← hp, ← hq]
    rfl
  | app n f a ihf iha =>
    simp only [Ty.mvars, List.forall_mem_append] at h
    obtain ⟨hf, hr⟩ := ihf h.1
    obtain ⟨ha, hr'⟩ := iha (hr.table ▸ h.2)
    rw [substWith_app]
    refine ⟨?_, (hr.trans hr').trans ⟨_, rfl⟩⟩
    simp only [Ty.plain, Ty.replace, ← hf, ← ha]
    rfl
  | mvar m =>
    rw [substWith_mvar_none (h m (by simp))]
    exact ⟨rfl, .refl r⟩
  | skolem | unknown | absent => exact ⟨rfl, .refl r⟩

/-- **Without solved metavariables, substitution replaces the name and no more.** -/
theorem plain_subst (h : ∀ m ∈ t.mvars, r.table.solution? m = none) :
    (subst x new t r).1.plain = t.plain.replace x new.plain :=
  (@plain_substWith (substWithin x new r.table.size) x new t r h).1

end

/-! ## Rigid types -/

namespace Ty

/-- The type is built from names, quantifiers, arrows, applications and skolem constants below
`n`. -/
def Rigid (n : Nat) (t : Ty) : Prop := t.Whole ∧ t.Leaves (fun _ => False) fun id => id < n

instance (n : Nat) (t : Ty) : Decidable (t.Rigid n) := inferInstanceAs (Decidable (_ ∧ _))

variable {n n' k : Nat} {p q t : Ty} {r : Run}

@[simp]
theorem rigid_arrow : (arrow k p q).Rigid n ↔ p.Rigid n ∧ q.Rigid n := by
  simp only [Rigid, Built, leaves_arrow]
  exact and_and_and_comm

@[simp]
theorem rigid_app : (app k p q).Rigid n ↔ p.Rigid n ∧ q.Rigid n := by
  simp only [Rigid, Built, leaves_app]
  exact and_and_and_comm

@[simp]
theorem rigid_all {x : String} : (all k x t).Rigid n ↔ t.Rigid n := Iff.rfl

@[simp]
theorem rigid_plain : t.plain.Rigid n ↔ t.Rigid n := by
  rw [Rigid, Whole, built_plain, leaves_plain, Rigid]

theorem Rigid.mono (h : t.Rigid n) (hn : n ≤ n') : t.Rigid n' :=
  ⟨h.1, h.2.mono (fun _ hm => hm) fun id hid => by omega⟩

/-- A rigid type has no metavariables, so whatever is said of them holds. -/
theorem Rigid.mvars {P : MVar → Prop} (h : t.Rigid n) : ∀ m ∈ t.mvars, P m :=
  fun m hm => (h.2.1 m hm).elim

theorem Rigid.plain_openAll (h : t.Rigid n) (x : String) (c : Int) (r : Run) :
    (openAll x t (.skolem c) r).1.plain = t.plain.replace x (.skolem c) :=
  plain_subst h.mvars

/-- A rigid type is rigid when it is opened at the next constant. -/
theorem Rigid.openAll (h : t.Rigid n) (x : String) (r : Run) :
    (openAll x t (.skolem n) r).1.Rigid (n + 1) := by
  rw [← rigid_plain, h.plain_openAll]
  have hplain := (rigid_plain.2 h).mono (Nat.le_succ n)
  exact ⟨hplain.1.replace x trivial, leaves_replace hplain.2 (by simp)⟩

theorem Rigid.nameless_openAll (h : t.Rigid n) (x : String) (c : Int) (r : Run) :
    (RankN.openAll x t (.skolem c) r).1.nameless =
      (t.read asConst [x]).instantiate 0 (.const (.skolem c)) := by
  have hread : (RankN.openAll x t (.skolem c) r).1.nameless =
      (t.plain.replace x (.skolem c)).nameless := by
    rw [← h.plain_openAll x c r]
    exact (read_plain _ [] _).symm
  rw [hread, nameless_replace (fun _ => rfl), read_plain]

/-- The next constant does not occur in a rigid type. -/
theorem Rigid.fresh (h : t.Rigid n) (ctx : List String) :
    Atom.skolem n ∉ (t.read asConst ctx).atoms := by
  rw [skolem_mem_atoms]
  intro hmem
  have := h.2.2 n hmem
  omega

/-- Bodies are equal up to renaming at a constant that neither mentions if and only if the
quantified types are. -/
theorem Rigid.alphaEq_openAll {k' : Nat} {x y : String} {t u : Ty} {r r' : Run} (ht : t.Rigid n)
    (hu : u.Rigid n) :
    (RankN.openAll x t (.skolem n) r).1.AlphaEq (RankN.openAll y u (.skolem n) r').1 ↔
      (Ty.all k x t).AlphaEq (.all k' y u) := by
  rw [AlphaEq, ht.nameless_openAll, hu.nameless_openAll]
  refine ⟨fun h => ?_, fun h => ?_⟩
  · exact congrArg Nameless.all (Nameless.instantiate_const_inj (ht.fresh [x]) (hu.fresh [y]) h)
  · rw [show t.read asConst [x] = u.read asConst [y] from Nameless.all.inj h]

theorem size_plain (t : Ty) : t.plain.size = t.size := by
  induction t with
  | all n x body ih => simp [plain, size, ih]
  | arrow n p q ihp ihq => simp [plain, size, ihp, ihq]
  | app n f a ihf iha => simp [plain, size, ihf, iha]
  | _ => rfl

/-- Opening at a constant makes a rigid type no larger. -/
theorem Rigid.size_openAll (h : t.Rigid n) (x : String) (c : Int) (r : Run) :
    (RankN.openAll x t (.skolem c) r).1.size = t.size := by
  rw [← size_plain, h.plain_openAll, size_replace rfl, size_plain]

/-- Types that clash differ by more than names. -/
theorem Clashes.not_alphaEq {a b : Ty} (h : a.Clashes b) (hne : a ≠ b) : ¬ a.AlphaEq b :=
  h.read_ne (θ := .constant) hne

end Ty

/-! ## Comparing -/

/-- The action succeeds if the condition holds and fails with a mismatch if not. Either way it
leaves all metavariables as they are. -/
def Action.Compares (x : Solve Unit) (r : Run) (C : Prop) : Prop :=
  x.Ensures r (fun _ r' => C ∧ r.Idles r') fun stop r' =>
    (¬ C ∧ ∃ t u, stop = .error (.mismatch t u)) ∧ r.Idles r'

namespace Action.Compares

variable {x y : Solve Unit} {r r' : Run} {C D : Prop}

theorem congr (h : x.Compares r C) (hCD : C ↔ D) : x.Compares r D := by
  rwa [← propext hCD]

theorem after (h : x.Compares r' C) (hr : r.Idles r') :
    x.Ensures r' (fun _ r'' => C ∧ r.Idles r'') fun stop r'' =>
      (¬ C ∧ ∃ t u, stop = .error (.mismatch t u)) ∧ r.Idles r'' :=
  Ensures.mono h (fun _ _ h => ⟨h.1, hr.trans h.2⟩) fun _ _ h => ⟨h.1, hr.trans h.2⟩

/-- Two comparisons in sequence. -/
theorem seq (hx : x.Compares r C) (hy : ∀ r', r.Idles r' → y.Compares r' D) :
    (do x; y : Solve Unit).Compares r (C ∧ D) := by
  apply ensures_bind.2
  apply Ensures.mono hx
  · intro _ r₁ ⟨hC, hr₁⟩
    exact ((hy r₁ hr₁).congr (D := C ∧ D) (by simp [hC])).after hr₁
  · intro stop r₁ ⟨⟨hC, hstop⟩, hr₁⟩
    exact ⟨⟨fun h => hC h.1, hstop⟩, hr₁⟩

end Action.Compares

/-- **Opening two quantified types at one constant.** It is decided for their bodies at the next
constant what was to be decided for the types. -/
theorem compares_opened {k k' : Nat} {x y : String} {t u : Ty} {r : Run} {z : Ty → Ty → Solve Unit}
    {C : Prop} (ht : (Ty.all k x t).Rigid r.skolems)
    (hu : (Ty.all k' y u).Rigid r.skolems)
    (h : ∀ (t' u' : Ty) (r' : Run), t'.Rigid r'.skolems → u'.Rigid r'.skolems → t'.size = t.size →
      (t'.AlphaEq u' ↔ (Ty.all k x t).AlphaEq (.all k' y u)) → (z t' u').Compares r' C) :
    (do
      let c ← Run.newSkolem
      let t ← openAll x t (.skolem c)
      let u ← openAll y u (.skolem c)
      z t u : Solve Unit).Compares r C := by
  rw [Ty.rigid_all] at ht hu
  unfold Compares
  simp only [ensures_bind, ensures_lift]
  generalize h₁ : (Run.newSkolem r).2 = r₁
  generalize h₂ : openAll x t (.skolem (Run.newSkolem r).1) r₁ = o₂
  generalize h₃ : openAll y u (.skolem (Run.newSkolem r).1) o₂.2 = o₃
  have hrun : r₁.Restamped o₃.2 := by
    rw [← h₃, ← h₂]
    exact (subst_restamped ..).trans (subst_restamped ..)
  have hskolems : o₃.2.skolems = r.skolems + 1 := by
    rw [hrun.skolems, ← h₁]
    rfl
  have hidles : r.Idles o₃.2 :=
    ⟨by rw [hrun.table, ← h₁]; rfl, by rw [hrun.mvars, ← h₁]; rfl, by omega⟩
  refine Compares.after (h o₂.1 o₃.1 o₃.2 ?_ ?_ ?_ ?_) hidles
  · rw [hskolems, ← h₂]
    exact ht.openAll x r₁
  · rw [hskolems, ← h₃]
    exact hu.openAll y o₂.2
  · rw [← h₂]
    exact ht.size_openAll x _ r₁
  · rw [← h₂, ← h₃]
    exact ht.alphaEq_openAll hu

/-- **Unification of rigid types decides whether they are equal up to renaming**, if there are steps
enough to pass through one of them. -/
theorem unifyWithin_rigid {n : Nat} {a b : Ty} {r : Run} (ha : a.Rigid r.skolems)
    (hb : b.Rigid r.skolems) (hn : a.size ≤ n) : (unifyWithin n a b).Compares r (a.AlphaEq b) := by
  induction n generalizing a b r with
  | zero =>
    have : 0 < a.size := by cases a <;> simp [Ty.size]
    omega
  | succ n ih =>
    have hlog : r.Idles (Run.log (.unify a b) r).2 := (r.agrees_log _).idles
    rw [← Run.skolems_log (.unify a b)] at ha hb
    -- Both parts of a compound type, one after the other.
    have both : ∀ {p p' q q' : Ty} {r : Run}, p.Rigid r.skolems ∧ q.Rigid r.skolems →
        p'.Rigid r.skolems ∧ q'.Rigid r.skolems → p.size ≤ n → q.size ≤ n →
        (do unifyWithin n p p'; unifyWithin n q q' : Solve Unit).Compares r
          (p.AlphaEq p' ∧ q.AlphaEq q') := by
      intro p p' q q' r h h' hp hq
      exact (ih h.1 h'.1 hp).seq fun r₁ hr₁ =>
        ih (h.2.mono hr₁.skolems) (h'.2.mono hr₁.skolems) hq
    refine ensures_unifyWithin ?_ ?_ ?_ ?_ ?_ ?_ ?_
    · rintro rfl
      exact ⟨rfl, hlog⟩
    · rintro k p q k' p' q' rfl rfl
      simp only [Ty.size] at hn
      refine ((both (Ty.rigid_arrow.1 ha) (Ty.rigid_arrow.1 hb) (by omega) (by omega)).congr
        ?_).after hlog
      simp [Ty.AlphaEq, Ty.nameless]
    · rintro k f x k' f' x' rfl rfl
      simp only [Ty.size] at hn
      refine ((both (Ty.rigid_app.1 ha) (Ty.rigid_app.1 hb) (by omega) (by omega)).congr
        ?_).after hlog
      simp [Ty.AlphaEq, Ty.nameless]
    · rintro k x t k' y u rfl rfl
      simp only [Ty.size] at hn
      refine (compares_opened ha hb fun t' u' r' ht hu hsize heq => ?_).after hlog
      exact (ih ht hu (by omega)).congr heq
    · rintro m rfl
      exact (ha.mvars (P := fun _ => False) m (by simp)).elim
    · rintro m rfl
      exact (hb.mvars (P := fun _ => False) m (by simp)).elim
    · intro hne hclash
      simp only [mismatch, ensures_bind, ensures_lift, ensures_throw, prune_unsolved ha.mvars,
        prune_unsolved hb.mvars]
      exact ⟨⟨hclash.not_alphaEq hne, a, b, rfl⟩, hlog⟩

theorem Run.le_steps (r : Run) (a b : Ty) : a.size ≤ r.steps [a, b] := by
  have hdepth : a.size ≤ r.depth [a, b] := by
    simp only [Run.depth, List.foldr_cons]
    omega
  calc a.size ≤ r.depth [a, b] := hdepth
    _ ≤ r.depth [a, b] * r.depth [a, b] := Nat.le_mul_self _
    _ ≤ r.steps [a, b] := by
      rw [Run.steps, Nat.shiftLeft_eq]
      exact Nat.le_mul_of_pos_right _ (Nat.two_pow_pos _)

/-- **Unification of rigid types decides equality up to renaming**, in every run. It fails with a
mismatch if they are not equal. Either way it allocates no metavariable and solves none. -/
theorem unify_decides_alphaEq (r : Run) {a b : Ty} (ha : a.Rigid r.skolems)
    (hb : b.Rigid r.skolems) :
    ((∃ r', unify a b r = .ok () r') ↔ a.AlphaEq b) ∧
    (¬ a.AlphaEq b → ∃ t u r', unify a b r = .error (.error (.mismatch t u)) r') ∧
    ((unify a b).after r).table = r.table ∧ ((unify a b).after r).mvars = r.mvars := by
  have hcompares : (unify a b).Compares r (a.AlphaEq b) :=
    unifyWithin_rigid ha hb (r.le_steps a b)
  unfold Action.after
  cases hx : unify a b r with
  | ok _ r' =>
    obtain ⟨heq, hidles⟩ := hcompares.of_ok hx
    exact ⟨by simp [heq], fun hne => absurd heq hne, hidles.table, hidles.mvars⟩
  | error stop r' =>
    obtain ⟨⟨hne, t, u, rfl⟩, hidles⟩ := hcompares.of_error hx
    exact ⟨by simp [hne], fun _ => ⟨t, u, r', rfl⟩, hidles.table, hidles.mvars⟩

/-- In a run whose only metavariable is solved by itself, `(∀ a. ∀ a. a → #0) → b` is unified with
`(∀ c. ∀ b. b → #0) → b`, and `∀ a. ∀ b. a → b` is not with `∀ a. ∀ b. b → a`. -/
theorem unify_shadowed_binders :
    let m : MVar := ⟨3, 0, .empty⟩
    let r : Run := { table := ⟨#[⟨m, some (.mvar m)⟩]⟩, mvars := 1, skolems := 1 }
    let inner (x y : String) : Ty := .all 0 x (.all 0 y (.arrow 0 (.var y) (.skolem 0)))
    let swap (x y : String) : Ty := .all 0 "a" (.all 0 "b" (.arrow 0 (.var x) (.var y)))
    (∃ r', unify (.arrow 0 (inner "a" "a") (.var "b")) (.arrow 1 (inner "c" "b") (.var "b")) r =
      .ok () r') ∧
    ∃ t u r', unify (swap "a" "b") (swap "b" "a") r = .error (.error (.mismatch t u)) r' := by
  intro m r inner swap
  constructor
  · exact (unify_decides_alphaEq r (by decide) (by decide)).1.2 (by decide)
  · exact (unify_decides_alphaEq r (by decide) (by decide)).2.1 (by decide)

end RankN
