import RankN.Proofs.Substitution

/-!
# Types up to renaming

A `Nameless` type has no names for its quantified variables: a bound variable is the number of
quantifiers between it and its own. Two types that differ only in the names of bound variables are
equal as nameless types. Everything that is not bound is a constant (`Atom`): a free name, a skolem
constant, a metavariable that has no meaning of its own.

**Reading.** `Ty.read θ ctx t` is what the type `t` means, when its metavariables mean what `θ` says
and the names of `ctx` are bound around it. Meanings of metavariables are closed, so they can stand
under any quantifier. A free name inside a solution must not be captured by a quantifier around the
metavariable, and `Ty.Named` is a condition on names that excludes it.
-/

namespace RankN

/-! ## Nameless types -/

/-- What a nameless type is built from. -/
inductive Atom where
  | name (x : String)
  | skolem (id : Int)
  | mvar (m : MVar)
  | unknown (stamp : Nat) (kind : String)
  | absent
deriving DecidableEq

/-- Types without names for bound variables. -/
inductive Nameless where
  | bound (i : Nat)
  | const (c : Atom)
  | all (body : Nameless)
  | arrow (param result : Nameless)
  | app (fn arg : Nameless)
deriving DecidableEq

namespace Nameless

/-- The constants of a type. -/
@[simp]
def atoms : Nameless → List Atom
  | .bound _ => []
  | .const c => [c]
  | .all body => body.atoms
  | .arrow p q => p.atoms ++ q.atoms
  | .app f a => f.atoms ++ a.atoms

/-- Put a closed type for the variable of the `k`-th quantifier around. -/
@[simp]
def instantiate : Nameless → Nat → Nameless → Nameless
  | .bound i, k, u => if i = k then u else .bound i
  | .const c, _, _ => .const c
  | .all body, k, u => .all (body.instantiate (k + 1) u)
  | .arrow p q, k, u => .arrow (p.instantiate k u) (q.instantiate k u)
  | .app f a, k, u => .app (f.instantiate k u) (a.instantiate k u)

/-- All bound variables belong to the type or to one of `k` quantifiers around it. -/
@[simp]
def ClosedAt : Nat → Nameless → Prop
  | k, .bound i => i < k
  | _, .const _ => True
  | k, .all body => body.ClosedAt (k + 1)
  | k, .arrow p q => p.ClosedAt k ∧ q.ClosedAt k
  | k, .app f a => f.ClosedAt k ∧ a.ClosedAt k

/-- All bound variables belong to the type. -/
abbrev Closed (A : Nameless) : Prop := A.ClosedAt 0

section

variable {A B u : Nameless} {k l : Nat} {c : Atom}

theorem ClosedAt.mono (h : A.ClosedAt k) (hkl : k ≤ l) : A.ClosedAt l := by
  induction A generalizing k l with
  | bound i => exact Nat.lt_of_lt_of_le h hkl
  | const c => trivial
  | all body ih => exact ih h (Nat.succ_le_succ hkl)
  | arrow p q ihp ihq => exact ⟨ihp h.1 hkl, ihq h.2 hkl⟩
  | app f a ihf iha => exact ⟨ihf h.1 hkl, iha h.2 hkl⟩

theorem Closed.at (h : A.Closed) (k : Nat) : A.ClosedAt k := ClosedAt.mono h k.zero_le

theorem ClosedAt.instantiate_eq (h : A.ClosedAt k) : A.instantiate k u = A := by
  induction A generalizing k with
  | bound i =>
    have : i ≠ k := Nat.ne_of_lt h
    simp [this]
  | const c => rfl
  | all body ih => simp [ih h]
  | arrow p q ihp ihq => simp [ihp h.1, ihq h.2]
  | app f a ihf iha => simp [ihf h.1, iha h.2]

/-- A type is determined by what it becomes at a constant that it does not mention. -/
theorem instantiate_const_inj (hA : c ∉ A.atoms) (hB : c ∉ B.atoms)
    (h : A.instantiate k (.const c) = B.instantiate k (.const c)) : A = B := by
  induction A generalizing B k with
  | bound i =>
    cases B with
    | bound j => by_cases hi : i = k <;> by_cases hj : j = k <;> simp_all
    | const d =>
      by_cases hi : i = k
      · simp_all
      · simp [hi] at h
    | _ => by_cases hi : i = k <;> simp [hi] at h
  | const d =>
    cases B with
    | bound j =>
      by_cases hj : j = k
      · simp_all
      · simp [hj] at h
    | const d' => exact h
    | _ => simp at h
  | all body ih =>
    cases B with
    | bound j => by_cases hj : j = k <;> simp [hj] at h
    | all body' =>
      simp only [atoms] at hA hB
      simp only [instantiate, all.injEq] at h
      rw [ih hA hB h]
    | _ => simp at h
  | arrow p q ihp ihq =>
    cases B with
    | bound j => by_cases hj : j = k <;> simp [hj] at h
    | arrow p' q' =>
      simp only [atoms, List.mem_append, not_or] at hA hB
      simp only [instantiate, arrow.injEq] at h
      rw [ihp hA.1 hB.1 h.1, ihq hA.2 hB.2 h.2]
    | _ => simp at h
  | app f a ihf iha =>
    cases B with
    | bound j => by_cases hj : j = k <;> simp [hj] at h
    | app f' a' =>
      simp only [atoms, List.mem_append, not_or] at hA hB
      simp only [instantiate, app.injEq] at h
      rw [ihf hA.1 hB.1 h.1, iha hA.2 hB.2 h.2]
    | _ => simp at h

end

end Nameless

/-! ## Reading types -/

namespace Ty

/-- What a type means where the names of `ctx` are bound, innermost first, and metavariables mean
what `θ` says. -/
@[simp]
def read (θ : MVar → Nameless) : List String → Ty → Nameless
  | ctx, .var x => if x ∈ ctx then .bound (ctx.idxOf x) else .const (.name x)
  | ctx, .all _ x body => .all (body.read θ (x :: ctx))
  | ctx, .arrow _ p q => .arrow (p.read θ ctx) (q.read θ ctx)
  | ctx, .app _ f a => .app (f.read θ ctx) (a.read θ ctx)
  | _, .mvar m => θ m
  | _, .skolem id => .const (.skolem id)
  | _, .unknown n kind => .const (.unknown n kind)
  | _, .absent => .const .absent

/-- The type up to renaming, its metavariables as constants. -/
def nameless (t : Ty) : Nameless := t.read (fun m => .const (.mvar m)) []

variable {θ θ' : MVar → Nameless} {ctx : List String} {t new : Ty}

@[simp]
theorem read_plain (θ : MVar → Nameless) (ctx : List String) (t : Ty) :
    t.plain.read θ ctx = t.read θ ctx := by
  induction t generalizing ctx with
  | all n x body ih => simp [plain, ih]
  | arrow n p q ihp ihq => simp [plain, ihp, ihq]
  | app n f a ihf iha => simp [plain, ihf, iha]
  | _ => rfl

theorem read_congr (h : ∀ m ∈ t.mvars, θ m = θ' m) : t.read θ ctx = t.read θ' ctx := by
  induction t generalizing ctx with
  | all n x body ih => simp [ih h]
  | arrow n p q ihp ihq =>
    simp only [mvars, List.mem_append] at h
    simp [ihp fun m hm => h m (.inl hm), ihq fun m hm => h m (.inr hm)]
  | app n f a ihf iha =>
    simp only [mvars, List.mem_append] at h
    simp [ihf fun m hm => h m (.inl hm), iha fun m hm => h m (.inr hm)]
  | mvar m => exact h m (by simp)
  | _ => rfl

theorem closedAt_read (hθ : ∀ m, (θ m).Closed) (t : Ty) (ctx : List String) :
    (t.read θ ctx).ClosedAt ctx.length := by
  induction t generalizing ctx with
  | var x =>
    by_cases hx : x ∈ ctx
    · simpa [hx] using List.idxOf_lt_length_iff.2 hx
    · simp [hx]
  | all n x body ih => exact ih (x :: ctx)
  | arrow n p q ihp ihq => exact ⟨ihp ctx, ihq ctx⟩
  | app n f a ihf iha => exact ⟨ihf ctx, iha ctx⟩
  | mvar m => exact (hθ m).at _
  | _ => trivial

/-- A name that is bound already hides one further out. -/
theorem read_append_of_mem {x : String} (hx : x ∈ ctx) (t : Ty) :
    t.read θ (ctx ++ [x]) = t.read θ ctx := by
  induction t generalizing ctx with
  | var y =>
    by_cases hy : y ∈ ctx
    · simp [hy, List.idxOf_append_of_mem]
    · have : y ≠ x := fun h => hy (h ▸ hx)
      simp [hy, this]
  | all n y body ih => simpa using ih (List.mem_cons_of_mem y hx)
  | arrow n p q ihp ihq => simp [ihp hx, ihq hx]
  | app n f a ihf iha => simp [ihf hx, iha hx]
  | _ => rfl

/-- **Replacing a name is instantiating its quantifier.** The type put in its place must mean the
same under any names. -/
theorem read_replace (hθ : ∀ m, (θ m).Closed) {x : String} {u : Nameless}
    (hnew : ∀ ctx, new.read θ ctx = u) (hx : x ∉ ctx) (t : Ty) :
    (t.replace x new).read θ ctx = (t.read θ (ctx ++ [x])).instantiate ctx.length u := by
  induction t generalizing ctx with
  | var y =>
    by_cases hyx : y = x
    · subst hyx
      simp [hnew, List.idxOf_append_of_notMem hx]
    · by_cases hy : y ∈ ctx
      · have hlt : ctx.idxOf y < ctx.length := List.idxOf_lt_length_iff.2 hy
        simp [hyx, hy, List.idxOf_append_of_mem, Nat.ne_of_lt hlt]
      · simp [hyx, hy]
  | all n y body ih =>
    by_cases hyx : y = x
    · subst hyx
      have hread := read_append_of_mem (θ := θ) (List.mem_cons_self (a := y) (l := ctx)) body
      have hclosed := closedAt_read hθ body (y :: ctx)
      simp only [List.cons_append] at hread
      simpa [replace, hread] using hclosed.instantiate_eq.symm
    · have hx' : x ∉ y :: ctx := by simp [hx, Ne.symm hyx]
      simpa [replace, hyx] using ih hx'
  | arrow n p q ihp ihq => simp [replace, ihp hx, ihq hx]
  | app n f a ihf iha => simp [replace, ihf hx, iha hx]
  | mvar m => simpa [replace] using (((hθ m).at ctx.length).instantiate_eq).symm
  | _ => rfl

/-! ## Names that cannot be captured -/

/-- Names that the type binds are in `B`, and names that are free in it, except those of `ctx`, are
not. -/
def Named (B : String → Prop) : List String → Ty → Prop
  | ctx, .var x => x ∈ ctx ∨ ¬ B x
  | ctx, .all _ x body => B x ∧ body.Named B (x :: ctx)
  | ctx, .arrow _ p q => p.Named B ctx ∧ q.Named B ctx
  | ctx, .app _ f a => f.Named B ctx ∧ a.Named B ctx
  | _, .mvar _ | _, .skolem _ | _, .unknown .. | _, .absent => True

variable {B : String → Prop} {ctx' : List String}

theorem Named.mono (h : t.Named B ctx) (hc : ∀ x ∈ ctx, x ∈ ctx') : t.Named B ctx' := by
  induction t generalizing ctx ctx' with
  | var x => exact h.imp_left (hc x)
  | all n x body ih =>
    refine ⟨h.1, ih h.2 fun y hy => ?_⟩
    rcases List.mem_cons.1 hy with rfl | hy
    · exact List.mem_cons_self
    · exact List.mem_cons_of_mem x (hc y hy)
  | arrow n p q ihp ihq => exact ⟨ihp h.1 hc, ihq h.2 hc⟩
  | app n f a ihf iha => exact ⟨ihf h.1 hc, iha h.2 hc⟩
  | _ => trivial

/-- Names that a type does not mention can be bound around it. -/
theorem Named.read_append (h : t.Named B ctx) (hB : ∀ x ∈ ctx', B x) :
    t.read θ (ctx ++ ctx') = t.read θ ctx := by
  induction t generalizing ctx with
  | var x =>
    by_cases hx : x ∈ ctx
    · simp [hx, List.idxOf_append_of_mem]
    · have : x ∉ ctx' := fun hx' => h.elim hx (fun hn => hn (hB x hx'))
      simp [hx, this]
  | all n x body ih => simpa using ih h.2
  | arrow n p q ihp ihq => simp [ihp h.1, ihq h.2]
  | app n f a ihf iha => simp [ihf h.1, iha h.2]
  | _ => rfl

theorem Named.read_eq (h : t.Named B []) (hB : ∀ x ∈ ctx, B x) : t.read θ ctx = t.read θ [] :=
  h.read_append hB

/-- What is filled in is read for itself. -/
theorem Named.read_fill {f : MVar → Ty} (h : (t.fill f).Named B ctx) (hB : ∀ x ∈ ctx, B x)
    (hf : ∀ m ∈ t.mvars, (f m).Named B []) :
    (t.fill f).read θ ctx = t.read (fun m => (f m).read θ []) ctx := by
  induction t generalizing ctx with
  | all n x body ih =>
    have hB' : ∀ y ∈ x :: ctx, B y := List.forall_mem_cons.2 ⟨h.1, hB⟩
    simp [ih h.2 hB' hf]
  | arrow n p q ihp ihq =>
    simp only [mvars, List.mem_append] at hf
    simp [ihp h.1 hB fun m hm => hf m (.inl hm), ihq h.2 hB fun m hm => hf m (.inr hm)]
  | app n g a ihf iha =>
    simp only [mvars, List.mem_append] at hf
    simp [ihf h.1 hB fun m hm => hf m (.inl hm), iha h.2 hB fun m hm => hf m (.inr hm)]
  | mvar m => exact (hf m (by simp)).read_eq hB
  | _ => rfl

theorem Named.fill {f : MVar → Ty} (h : t.Named B ctx) (hf : ∀ m ∈ t.mvars, (f m).Named B []) :
    (t.fill f).Named B ctx := by
  induction t generalizing ctx with
  | all n x body ih => exact ⟨h.1, ih h.2 hf⟩
  | arrow n p q ihp ihq =>
    simp only [mvars, List.mem_append] at hf
    exact ⟨ihp h.1 fun m hm => hf m (.inl hm), ihq h.2 fun m hm => hf m (.inr hm)⟩
  | app n g a ihf iha =>
    simp only [mvars, List.mem_append] at hf
    exact ⟨ihf h.1 fun m hm => hf m (.inl hm), iha h.2 fun m hm => hf m (.inr hm)⟩
  | mvar m => exact (hf m (by simp)).mono (by simp)
  | _ => exact h

/-- A name that is replaced everywhere need not be bound any more. -/
theorem Named.replace {x : String} (h : t.Named B (ctx ++ [x])) (hnew : ∀ ctx, new.Named B ctx) :
    (t.replace x new).Named B ctx := by
  induction t generalizing ctx with
  | var y =>
    by_cases hyx : y = x
    · simpa [Ty.replace, hyx] using hnew ctx
    · simp only [Named, List.mem_append, List.mem_singleton, hyx, or_false] at h
      rw [Ty.replace, if_neg hyx]
      exact h
  | all n y body ih =>
    by_cases hyx : y = x
    · subst hyx
      rw [Ty.replace, if_pos rfl]
      refine ⟨h.1, h.2.mono fun z hz => ?_⟩
      simp only [List.mem_cons, List.mem_append, List.not_mem_nil, or_false] at hz ⊢
      grind
    · rw [Ty.replace, if_neg hyx]
      exact ⟨h.1, ih h.2⟩
  | arrow n p q ihp ihq => exact ⟨ihp h.1, ihq h.2⟩
  | app n f a ihf iha => exact ⟨ihf h.1, iha h.2⟩
  | _ => exact h

end Ty

end RankN
