import RankN.Ty.Subst
import RankN.Proofs.Expansion

/-!
# What substitution does

Substitution reads a type through the table of a run and leaves the table alone; of the run it only
uses up stamps (`subst_restamped`). What it returns means the expansion of the type with the
variable replaced (`expand_subst`), and nothing occurs in it that did not occur in the type, in its
replacement, or in a solution (`leaves_subst`).
-/

namespace RankN

/-! ## Replacing a variable -/

namespace Ty

/-- The type with the free occurrences of a variable replaced. A quantifier over the same name ends
the replacement; bound names are not renamed. -/
@[simp]
def replace : Ty → String → Ty → Ty
  | .var y, x, new => if y = x then new else .var y
  | .all n y body, x, new => if y = x then .all n y body else .all n y (body.replace x new)
  | .arrow n p q, x, new => .arrow n (p.replace x new) (q.replace x new)
  | .app n f a, x, new => .app n (f.replace x new) (a.replace x new)
  | .mvar m, _, _ => .mvar m
  | .skolem id, _, _ => .skolem id
  | .unknown n k, _, _ => .unknown n k
  | .absent, _, _ => .absent

theorem leaves_replace {P : MVar → Prop} {Q : Int → Prop} {x : String} {t new : Ty}
    (ht : t.Leaves P Q) (hnew : new.Leaves P Q) : (t.replace x new).Leaves P Q := by
  induction t with
  | var y =>
    by_cases hy : y = x
    · simpa [hy] using hnew
    · simp [hy]
  | all n y body ih =>
    by_cases hy : y = x
    · simpa [hy] using ht
    · simpa [hy] using ih ht
  | arrow n p q ihp ihq =>
    rw [leaves_arrow] at ht
    exact leaves_arrow.2 ⟨ihp ht.1, ihq ht.2⟩
  | app n f a ihf iha =>
    rw [leaves_app] at ht
    exact leaves_app.2 ⟨ihf ht.1, iha ht.2⟩
  | _ => exact ht

/-- Replacing a variable by a leaf leaves the size. -/
theorem size_replace {new : Ty} (hnew : new.size = 1) (t : Ty) (x : String) :
    (t.replace x new).size = t.size := by
  induction t with
  | var y => by_cases hy : y = x <;> simp [hy, size, hnew]
  | all n y body ih => by_cases hy : y = x <;> simp [hy, size, ih]
  | arrow n p q ihp ihq => simp [size, ihp, ihq]
  | app n f a ihf iha => simp [size, ihf, iha]
  | _ => rfl

end Ty

/-! ## Runs that differ in their stamps -/

/-- The second run is the first one with other stamps to give out. -/
def Run.Restamped (r r' : Run) : Prop := ∃ n, r' = { r with stamps := n }

namespace Run.Restamped

variable {r r' r'' : Run}

theorem refl (r : Run) : r.Restamped r := ⟨r.stamps, rfl⟩

theorem trans (h : r.Restamped r') (h' : r'.Restamped r'') : r.Restamped r'' := by
  obtain ⟨n, rfl⟩ := h
  obtain ⟨n', rfl⟩ := h'
  exact ⟨n', rfl⟩

theorem table (h : r.Restamped r') : r'.table = r.table := by
  obtain ⟨n, rfl⟩ := h
  rfl

theorem skolems (h : r.Restamped r') : r'.skolems = r.skolems := by
  obtain ⟨n, rfl⟩ := h
  rfl

theorem mvars (h : r.Restamped r') : r'.mvars = r.mvars := by
  obtain ⟨n, rfl⟩ := h
  rfl

end Run.Restamped

/-! ## One level of substitution -/

section

variable {enter : Ty → StateM Run Ty} {x : String} {new t : Ty} {r : Run}

theorem substWith_var (y : String) (r : Run) :
    substWith enter x new (.var y) r = (if y = x then new else .var y, r) := rfl

theorem substWith_mvar (m : MVar) (r : Run) :
    substWith enter x new (.mvar m) r = (match r.table.solution? m with
      | some t => enter t
      | none => pure (.mvar m) : StateM Run Ty) r := rfl

theorem substWith_mvar_none {m : MVar} (h : r.table.solution? m = none) :
    substWith enter x new (.mvar m) r = (.mvar m, r) := by
  rw [substWith_mvar, h]
  rfl

theorem substWith_mvar_some {m : MVar} {u : Ty} (h : r.table.solution? m = some u) :
    substWith enter x new (.mvar m) r = enter u r := by
  rw [substWith_mvar, h]

theorem substWith_arrow (n : Nat) (p q : Ty) (r : Run) :
    substWith enter x new (.arrow n p q) r =
      Run.newArrow (substWith enter x new p r).1
        (substWith enter x new q (substWith enter x new p r).2).1
        (substWith enter x new q (substWith enter x new p r).2).2 := rfl

theorem substWith_app (n : Nat) (f a : Ty) (r : Run) :
    substWith enter x new (.app n f a) r =
      Run.newApp (substWith enter x new f r).1
        (substWith enter x new a (substWith enter x new f r).2).1
        (substWith enter x new a (substWith enter x new f r).2).2 := rfl

theorem substWith_all_self (n : Nat) (body : Ty) (r : Run) :
    substWith enter x new (.all n x body) r = (.all n x body, r) := by
  rw [substWith, if_pos rfl]
  rfl

theorem substWith_all_of_ne (n : Nat) {y : String} (hy : y ≠ x) (body : Ty) (r : Run) :
    substWith enter x new (.all n y body) r =
      Run.newAll y (substWith enter x new body r).1 (substWith enter x new body r).2 := by
  simp only [substWith, hy, if_false]
  rfl

theorem substWith_restamped (he : ∀ u r, Run.Restamped r (enter u r).2) (t : Ty) (r : Run) :
    Run.Restamped r (substWith enter x new t r).2 := by
  induction t generalizing r with
  | var y => exact .refl r
  | all n y body ih =>
    by_cases hy : y = x
    · subst hy
      rw [substWith_all_self]
      exact .refl r
    · rw [substWith_all_of_ne n hy]
      exact (ih r).trans ⟨_, rfl⟩
  | arrow n p q ihp ihq =>
    rw [substWith_arrow]
    exact ((ihp r).trans (ihq _)).trans ⟨_, rfl⟩
  | app n f a ihf iha =>
    rw [substWith_app]
    exact ((ihf r).trans (iha _)).trans ⟨_, rfl⟩
  | mvar m =>
    cases hs : r.table.solution? m with
    | none => rw [substWith_mvar_none hs]; exact .refl r
    | some u => rw [substWith_mvar_some hs]; exact he u r
  | skolem | unknown | absent => exact .refl r

theorem stamps_le_substWith (he : ∀ u (r : Run), r.stamps ≤ (enter u r).2.stamps) (t : Ty)
    (r : Run) : r.stamps ≤ (substWith enter x new t r).2.stamps := by
  induction t generalizing r with
  | var y => exact le_rfl
  | all n y body ih =>
    by_cases hy : y = x
    · subst hy
      rw [substWith_all_self]
    · rw [substWith_all_of_ne n hy]
      exact (ih r).trans (Nat.le_succ _)
  | arrow n p q ihp ihq =>
    rw [substWith_arrow]
    exact ((ihp r).trans (ihq _)).trans (Nat.le_succ _)
  | app n f a ihf iha =>
    rw [substWith_app]
    exact ((ihf r).trans (iha _)).trans (Nat.le_succ _)
  | mvar m =>
    cases hs : r.table.solution? m with
    | none => rw [substWith_mvar_none hs]
    | some u => rw [substWith_mvar_some hs]; exact he u r
  | skolem | unknown | absent => exact le_rfl

theorem expand_substWith {tb : Table} (ha : tb.Acyclic)
    (hr : ∀ u r, Run.Restamped r (enter u r).2)
    (he : ∀ m ∈ t.mvars, ∀ u, tb.solution? m = some u → ∀ r : Run, r.table = tb →
      tb.expand (enter u r).1 = (tb.expand u).replace x (tb.expand new))
    (h : r.table = tb) :
    tb.expand (substWith enter x new t r).1 = (tb.expand t).replace x (tb.expand new) := by
  induction t generalizing r with
  | var y =>
    by_cases hy : y = x
    · simp [substWith_var, hy]
    · simp [substWith_var, hy]
  | all n y body ih =>
    by_cases hy : y = x
    · subst hy
      simp [substWith_all_self]
    · rw [substWith_all_of_ne n hy]
      simp only [Table.expand_all, Ty.replace, hy, if_false, ← ih he h]
      rfl
  | arrow n p q ihp ihq =>
    have hp : Run.Restamped r (substWith enter x new p r).2 := substWith_restamped hr p r
    rw [substWith_arrow]
    simp only [Table.expand_arrow, Ty.replace]
    rw [← ihp (fun m hm => he m (by simp [hm])) h,
      ← ihq (fun m hm => he m (by simp [hm])) (hp.table.trans h)]
    rfl
  | app n f a ihf iha =>
    have hf : Run.Restamped r (substWith enter x new f r).2 := substWith_restamped hr f r
    rw [substWith_app]
    simp only [Table.expand_app, Ty.replace]
    rw [← ihf (fun m hm => he m (by simp [hm])) h,
      ← iha (fun m hm => he m (by simp [hm])) (hf.table.trans h)]
    rfl
  | mvar m =>
    cases hs : r.table.solution? m with
    | none =>
      rw [substWith_mvar_none hs, h] at *
      simp [Table.expand_unsolved hs]
    | some u =>
      rw [substWith_mvar_some hs]
      rw [h] at hs
      rw [he m (by simp) u hs r h, ha.expand_solved hs]
  | skolem | unknown | absent => rfl

theorem leaves_substWith {P : MVar → Prop} {Q : Int → Prop}
    (hr : ∀ u r, Run.Restamped r (enter u r).2)
    (he : ∀ u (r : Run), (∀ m t, r.table.solution? m = some t → t.Leaves P Q) →
      u.Leaves P Q → (enter u r).1.Leaves P Q)
    (htb : ∀ m u, r.table.solution? m = some u → u.Leaves P Q)
    (hnew : new.Leaves P Q) (ht : t.Leaves P Q) : (substWith enter x new t r).1.Leaves P Q := by
  induction t generalizing r with
  | var y =>
    by_cases hy : y = x
    · simpa [substWith_var, hy] using hnew
    · simp [substWith_var, hy]
  | all n y body ih =>
    by_cases hy : y = x
    · subst hy
      rwa [substWith_all_self]
    · rw [substWith_all_of_ne n hy]
      exact ih htb ht
  | arrow n p q ihp ihq =>
    rw [Ty.leaves_arrow] at ht
    have hp : Run.Restamped r (substWith enter x new p r).2 := substWith_restamped hr p r
    rw [substWith_arrow]
    exact Ty.leaves_arrow.2 ⟨ihp htb ht.1, ihq (hp.table ▸ htb) ht.2⟩
  | app n f a ihf iha =>
    rw [Ty.leaves_app] at ht
    have hf : Run.Restamped r (substWith enter x new f r).2 := substWith_restamped hr f r
    rw [substWith_app]
    exact Ty.leaves_app.2 ⟨ihf htb ht.1, iha (hf.table ▸ htb) ht.2⟩
  | mvar m =>
    cases hs : r.table.solution? m with
    | none => rwa [substWith_mvar_none hs]
    | some u => rw [substWith_mvar_some hs]; exact he u r htb (htb m u hs)
  | skolem | unknown | absent => exact ht

/-- No metavariable of the type is solved, except under a quantifier. -/
def Ty.Resolved (tb : Table) : Ty → Prop
  | .mvar m => tb.solution? m = none
  | .arrow _ p q => p.Resolved tb ∧ q.Resolved tb
  | .app _ f a => f.Resolved tb ∧ a.Resolved tb
  | _ => True

theorem resolved_substWith {tb : Table} {enter : Ty → StateM Run Ty} {x : String} {new t : Ty}
    {r : Run} (hr : ∀ u r, Run.Restamped r (enter u r).2)
    (he : ∀ m ∈ t.mvars, ∀ u, tb.solution? m = some u → ∀ r : Run, r.table = tb →
      (enter u r).1.Resolved tb)
    (hnew : new.Resolved tb) (h : r.table = tb) : (substWith enter x new t r).1.Resolved tb := by
  induction t generalizing r with
  | var y =>
    by_cases hy : y = x
    · simpa [substWith_var, hy] using hnew
    · simp [substWith_var, hy, Ty.Resolved]
  | all n y body =>
    by_cases hy : y = x
    · subst hy
      rw [substWith_all_self]
      trivial
    · rw [substWith_all_of_ne n hy]
      trivial
  | arrow n p q ihp ihq =>
    have hp : Run.Restamped r (substWith enter x new p r).2 := substWith_restamped hr p r
    rw [substWith_arrow]
    exact ⟨ihp (fun m hm => he m (by simp [hm])) h,
      ihq (fun m hm => he m (by simp [hm])) (hp.table.trans h)⟩
  | app n f a ihf iha =>
    have hf : Run.Restamped r (substWith enter x new f r).2 := substWith_restamped hr f r
    rw [substWith_app]
    exact ⟨ihf (fun m hm => he m (by simp [hm])) h,
      iha (fun m hm => he m (by simp [hm])) (hf.table.trans h)⟩
  | mvar m =>
    cases hs : r.table.solution? m with
    | none =>
      rw [substWith_mvar_none hs]
      rwa [h] at hs
    | some u =>
      rw [substWith_mvar_some hs]
      rw [h] at hs
      exact he m (by simp) u hs r h
  | skolem | unknown | absent => trivial

end

/-! ## Substitution -/

section

variable {x : String} {new t : Ty} {r : Run}

theorem substWithin_restamped (x : String) (new : Ty) (n : Nat) (t : Ty) (r : Run) :
    Run.Restamped r (substWithin x new n t r).2 := by
  induction n generalizing t r with
  | zero => exact .refl r
  | succ n ih => exact substWith_restamped ih t r

/-- Substitution uses up stamps and nothing else. -/
theorem subst_restamped (x : String) (new t : Ty) (r : Run) :
    Run.Restamped r (subst x new t r).2 := substWithin_restamped x new _ t r

theorem stamps_le_subst (x : String) (new t : Ty) (r : Run) :
    r.stamps ≤ (subst x new t r).2.stamps := by
  have main : ∀ n (t : Ty) (r : Run), r.stamps ≤ (substWithin x new n t r).2.stamps := by
    intro n
    induction n with
    | zero => exact fun _ _ => le_rfl
    | succ n ih => exact stamps_le_substWith ih
  exact main _ t r

/-- **Substitution replaces the variable in the expansion.** -/
theorem expand_subst (ha : r.table.Acyclic) (x : String) (new t : Ty) :
    r.table.expand (subst x new t r).1 = (r.table.expand t).replace x (r.table.expand new) := by
  have main : ∀ n (t : Ty) (r' : Run), r.table.Within n t → r'.table = r.table →
      r.table.expand (substWithin x new (n + 1) t r').1 =
        (r.table.expand t).replace x (r.table.expand new) := by
    intro n
    induction n with
    | zero =>
      intro t r' ht hr'
      refine expand_substWith ha (substWithin_restamped x new 0) (fun m hm u hu => ?_) hr'
      rw [ht.unsolved hm] at hu
      cases hu
    | succ n ih =>
      intro t r' ht hr'
      exact expand_substWith ha (substWithin_restamped x new (n + 1))
        (fun m hm u hu r'' hr'' => ih u r'' (ha.within_solution (ht m hm) hu) hr'') hr'
  exact main r.table.size t r (Table.within_size _ t) rfl

theorem leaves_subst {P : MVar → Prop} {Q : Int → Prop}
    (htb : ∀ m u, r.table.solution? m = some u → u.Leaves P Q) (hnew : new.Leaves P Q)
    (ht : t.Leaves P Q) : (subst x new t r).1.Leaves P Q := by
  have main : ∀ n (t : Ty) (r : Run), (∀ m u, r.table.solution? m = some u → u.Leaves P Q) →
      t.Leaves P Q → (substWithin x new n t r).1.Leaves P Q := by
    intro n
    induction n with
    | zero => exact fun t r _ ht => ht
    | succ n ih =>
      exact fun t r htb ht => leaves_substWith (substWithin_restamped x new n) ih htb hnew ht
  exact main _ t r htb ht

/-- Substitution replaces solved metavariables on its way, and goes everywhere but under some
quantifiers. -/
theorem resolved_subst {r : Run} (ha : r.table.Acyclic) (x : String) {new : Ty}
    (hnew : new.Resolved r.table) (t : Ty) : (subst x new t r).1.Resolved r.table := by
  have main : ∀ n (t : Ty) (r' : Run), r.table.Within n t → r'.table = r.table →
      (substWithin x new (n + 1) t r').1.Resolved r.table := by
    intro n
    induction n with
    | zero =>
      intro t r' ht hr'
      refine resolved_substWith (substWithin_restamped x new 0) (fun m hm u hu => ?_) hnew hr'
      rw [ht.unsolved hm] at hu
      cases hu
    | succ n ih =>
      intro t r' ht hr'
      exact resolved_substWith (substWithin_restamped x new (n + 1))
        (fun m hm u hu r'' hr'' => ih u r'' (ha.within_solution (ht m hm) hu) hr'') hnew hr'
  exact main r.table.size t r (Table.within_size _ t) rfl

end

/-! ## Types with all their parts -/

namespace Ty

variable {U : Prop} {t : Ty}

/-- The type has all its parts: none is absent, and none is unknown unless `U` holds. -/
def Built (U : Prop) : Ty → Prop
  | .all _ _ body => body.Built U
  | .arrow _ p q => p.Built U ∧ q.Built U
  | .app _ f a => f.Built U ∧ a.Built U
  | .unknown .. => U
  | .absent => False
  | .var _ | .mvar _ | .skolem _ => True

/-- No part of the type is absent or unknown. -/
abbrev Whole (t : Ty) : Prop := t.Built False

/-- No part of the type is absent. -/
abbrev Complete (t : Ty) : Prop := t.Built True

instance decidableBuilt [Decidable U] : (t : Ty) → Decidable (t.Built U)
  | .all _ _ body => decidableBuilt body
  | .arrow _ p q => @instDecidableAnd _ _ (decidableBuilt p) (decidableBuilt q)
  | .app _ f a => @instDecidableAnd _ _ (decidableBuilt f) (decidableBuilt a)
  | .unknown .. => inferInstanceAs (Decidable U)
  | .absent => .isFalse id
  | .var _ | .mvar _ | .skolem _ => .isTrue trivial

theorem built_plain : t.plain.Built U ↔ t.Built U := by
  induction t with
  | all n x body ih => exact ih
  | arrow n p q ihp ihq => exact and_congr ihp ihq
  | app n f a ihf iha => exact and_congr ihf iha
  | _ => exact Iff.rfl

theorem Whole.complete (h : t.Whole) : t.Complete := by
  induction t with
  | all n x body ih => exact ih h
  | arrow n p q ihp ihq => exact ⟨ihp h.1, ihq h.2⟩
  | app n f a ihf iha => exact ⟨ihf h.1, iha h.2⟩
  | unknown n k => exact trivial
  | _ => exact h

theorem Built.fill (h : t.Built U) {f : MVar → Ty} (hf : ∀ m ∈ t.mvars, (f m).Built U) :
    (t.fill f).Built U := by
  induction t with
  | all n x body ih => exact ih h hf
  | arrow n p q ihp ihq =>
    simp only [mvars, List.forall_mem_append] at hf
    exact ⟨ihp h.1 hf.1, ihq h.2 hf.2⟩
  | app n g a ihg iha =>
    simp only [mvars, List.forall_mem_append] at hf
    exact ⟨ihg h.1 hf.1, iha h.2 hf.2⟩
  | mvar m => exact hf m (by simp)
  | _ => exact h

theorem Built.replace (h : t.Built U) (x : String) {new : Ty} (hnew : new.Built U) :
    (t.replace x new).Built U := by
  induction t with
  | var y =>
    by_cases hy : y = x
    · simpa [Ty.replace, hy] using hnew
    · simp [Ty.replace, hy, Built]
  | all n y body ih =>
    by_cases hy : y = x
    · simpa [Ty.replace, hy] using h
    · simpa [Ty.replace, hy, Built] using ih h
  | arrow n p q ihp ihq => exact ⟨ihp h.1, ihq h.2⟩
  | app n f a ihf iha => exact ⟨ihf h.1, iha h.2⟩
  | _ => exact h

end Ty

end RankN
