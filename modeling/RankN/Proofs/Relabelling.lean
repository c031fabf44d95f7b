import RankN.Proofs.Pruning
import RankN.Proofs.Substitution
import Mathlib.Algebra.Group.End

/-!
# Relabelling

`t.relabel f g` is the type `t` with other metavariables and other skolem constants: `f m` stands
for `m`, and `g c` for `c`. Relabelling commutes with what is done to types: replacing a name,
filling in metavariables, forgetting stamps.

**Faithful relabellings.** Solving looks at a type in three ways: which metavariables in it are the
same, which skolem constants are in a scope, and which scopes are equal. A relabelling that keeps
apart the metavariables in play and carries their scopes along is *faithful* (`Faithful`), and meets
the same obstacles (`obstacle?_relabel`).

**Exchanges.** A permutation of the metavariables in play that leaves scopes as they are
(`Exchanges`) can go before any faithful relabelling.
-/

namespace RankN

namespace Ty

/-- The type with other metavariables and skolem constants. -/
@[simp]
def relabel (f : MVar → MVar) (g : Int → Int) : Ty → Ty
  | .mvar m => .mvar (f m)
  | .skolem id => .skolem (g id)
  | .all n x body => .all n x (body.relabel f g)
  | .arrow n p q => .arrow n (p.relabel f g) (q.relabel f g)
  | .app n fn arg => .app n (fn.relabel f g) (arg.relabel f g)
  | .var x => .var x
  | .unknown n k => .unknown n k
  | .absent => .absent

variable {f f' : MVar → MVar} {g g' : Int → Int} {t : Ty}

@[simp]
theorem mvars_relabel (t : Ty) : (t.relabel f g).mvars = t.mvars.map f := by
  induction t with
  | all n x body ih => simpa using ih
  | arrow n p q ihp ihq => simp [ihp, ihq]
  | app n fn arg ihf iha => simp [ihf, iha]
  | _ => rfl

@[simp]
theorem skolems_relabel (t : Ty) : (t.relabel f g).skolems = t.skolems.map g := by
  induction t with
  | all n x body ih => simpa using ih
  | arrow n p q ihp ihq => simp [ihp, ihq]
  | app n fn arg ihf iha => simp [ihf, iha]
  | _ => rfl

/-- Only what occurs in a type matters. -/
theorem relabel_congr (h : t.Leaves (fun m => f m = f' m) fun c => g c = g' c) :
    t.relabel f g = t.relabel f' g' := by
  induction t with
  | all n x body ih => simpa using ih h
  | arrow n p q ihp ihq =>
    rw [leaves_arrow] at h
    simp [ihp h.1, ihq h.2]
  | app n fn arg ihf iha =>
    rw [leaves_app] at h
    simp [ihf h.1, iha h.2]
  | mvar m => simpa using h
  | skolem c => simpa using h
  | _ => rfl

theorem relabel_id (t : Ty) : t.relabel id id = t := by
  induction t with
  | all n x body ih => simpa using ih
  | arrow n p q ihp ihq => simp [ihp, ihq]
  | app n fn arg ihf iha => simp [ihf, iha]
  | _ => rfl

theorem relabel_relabel (t : Ty) :
    (t.relabel f g).relabel f' g' = t.relabel (f' ∘ f) (g' ∘ g) := by
  induction t with
  | all n x body ih => simpa using ih
  | arrow n p q ihp ihq => simp [ihp, ihq]
  | app n fn arg ihf iha => simp [ihf, iha]
  | _ => rfl

theorem relabel_replace (t : Ty) (x : String) (new : Ty) :
    (t.replace x new).relabel f g = (t.relabel f g).replace x (new.relabel f g) := by
  induction t with
  | var y => by_cases hy : y = x <;> simp [hy]
  | all n y body ih => by_cases hy : y = x <;> simp [hy, ih]
  | arrow n p q ihp ihq => simp [ihp, ihq]
  | app n fn arg ihf iha => simp [ihf, iha]
  | _ => rfl

/-- Filling in after relabelling is relabelling what was filled in. -/
theorem relabel_fill {σ σ' : MVar → Ty} (h : ∀ m ∈ t.mvars, σ' (f m) = (σ m).relabel f' g) :
    (t.relabel f g).fill σ' = (t.fill σ).relabel f' g := by
  induction t with
  | all n x body ih => simpa using ih h
  | arrow n p q ihp ihq =>
    simp only [mvars, List.mem_append] at h
    simp [ihp fun m hm => h m (.inl hm), ihq fun m hm => h m (.inr hm)]
  | app n fn arg ihf iha =>
    simp only [mvars, List.mem_append] at h
    simp [ihf fun m hm => h m (.inl hm), iha fun m hm => h m (.inr hm)]
  | mvar m => simpa using h m (by simp)
  | _ => rfl

end Ty

/-! ## Faithful relabellings -/

/-- The relabelling keeps the metavariables `U` apart and carries their scopes along; they become
some of the metavariables `U'`. -/
structure Faithful (f : MVar → MVar) (g : Equiv.Perm Int) (U U' : MVar → Prop) : Prop where
  maps : ∀ m, U m → U' (f m)
  inj : ∀ m k, U m → U k → f m = f k → m = k
  scopes : ∀ m, U m → ∀ c, g c ∈ (f m).scope ↔ c ∈ m.scope

/-- The permutation exchanges metavariables in `U` that have the same scope. -/
structure Exchanges (U : MVar → Prop) (π : Equiv.Perm MVar) : Prop where
  moved : ∀ m, π m ≠ m → U m
  scope : ∀ m, (π m).scope = m.scope

section

variable {f : MVar → MVar} {g : Equiv.Perm Int} {U U' : MVar → Prop} {π π' : Equiv.Perm MVar}
  {m k : MVar} {t : Ty}

theorem faithful_id (U : MVar → Prop) : Faithful id 1 U U :=
  ⟨fun _ h => h, fun _ _ _ _ h => h, fun _ _ _ => Iff.rfl⟩

/-- Scopes are equal if what they become is. -/
theorem Faithful.scope_eq_iff (h : Faithful f g U U') (hm : U m) (hk : U k) :
    (f m).scope = (f k).scope ↔ m.scope = k.scope := by
  constructor
  · intro heq
    refine Scope.ext_mem fun c => ?_
    rw [← h.scopes m hm, ← h.scopes k hk, heq]
  · intro heq
    refine Scope.ext_mem fun d => ?_
    obtain ⟨c, rfl⟩ := g.surjective d
    rw [h.scopes m hm, h.scopes k hk, heq]

/-- **A faithful relabelling meets the same obstacles.** -/
theorem obstacle?_relabel (h : Faithful f g U U') (hm : U m) (ht : ∀ k ∈ t.mvars, U k) :
    obstacle? {} (f m) (t.relabel f g) = obstacle? {} m t := by
  simp only [obstacle?_empty]
  induction t with
  | all n x body ih => simpa [obstacleWith] using ih ht
  | arrow n p q ihp ihq =>
    simp only [Ty.mvars, List.mem_append] at ht
    simp [obstacleWith, ihp fun k hk => ht k (.inl hk), ihq fun k hk => ht k (.inr hk)]
  | app n fn arg ihf iha =>
    simp only [Ty.mvars, List.mem_append] at ht
    simp [obstacleWith, ihf fun k hk => ht k (.inl hk), iha fun k hk => ht k (.inr hk)]
  | mvar k =>
    have hk : U k := ht k (by simp)
    have heq : f k = f m ↔ k = m := ⟨h.inj k m hk hm, congrArg f⟩
    simp [obstacleWith, heq, h.scope_eq_iff hm hk]
  | skolem c =>
    have hc : (f m).scope.contains (g c) = m.scope.contains c := by
      rw [Bool.eq_iff_iff, Scope.contains_iff, Scope.contains_iff]
      exact h.scopes m hm c
    simp only [Ty.relabel, obstacleWith, hc]
  | _ => rfl

theorem exchanges_one (U : MVar → Prop) : Exchanges U 1 := ⟨fun _ h => absurd rfl h, fun _ => rfl⟩

theorem Exchanges.mem (h : Exchanges U π) (hm : U m) : U (π m) := by
  by_cases hfix : π m = m
  · rwa [hfix]
  · exact h.moved _ fun heq => hfix (π.injective heq)

theorem Exchanges.mul (h : Exchanges U π) (h' : Exchanges U π') : Exchanges U (π * π') := by
  refine ⟨fun m hm => ?_, fun m => (h.scope _).trans (h'.scope m)⟩
  by_cases hfix : π' m = m
  · refine h.moved m fun heq => hm ?_
    rw [Equiv.Perm.mul_apply, hfix, heq]
  · exact h'.moved m hfix

theorem exchanges_swap (hm : U m) (hk : U k) (hs : m.scope = k.scope) :
    Exchanges U (Equiv.swap m k) := by
  refine ⟨fun j hj => ?_, fun j => ?_⟩
  · rcases (Equiv.swap_apply_ne_self_iff.1 hj).2 with rfl | rfl
    · exact hm
    · exact hk
  · rcases eq_or_ne j m with rfl | hjm
    · rw [Equiv.swap_apply_left, hs]
    · rcases eq_or_ne j k with rfl | hjk
      · rw [Equiv.swap_apply_right, hs]
      · rw [Equiv.swap_apply_of_ne_of_ne hjm hjk]

/-- Metavariables may be exchanged before they are relabelled. -/
theorem Faithful.comp (h : Faithful f g U U') (hπ : Exchanges U π) : Faithful (f ∘ π) g U U' where
  maps m hm := h.maps _ (hπ.mem hm)
  inj m k hm hk heq := π.injective (h.inj _ _ (hπ.mem hm) (hπ.mem hk) heq)
  scopes m hm c := (h.scopes _ (hπ.mem hm) c).trans (by rw [hπ.scope])

end

/-! ## Fresh constants

A constant `c` that occurs nowhere may become any constant `d` that occurs nowhere. -/

section

variable {f : MVar → MVar} {g : Equiv.Perm Int} {U U' : MVar → Prop} {c d : Int}

/-- The permutation that takes `c` to `d`, and what `g` takes to `d` to where `g` takes `c`. -/
def redirect (g : Equiv.Perm Int) (c d : Int) : Equiv.Perm Int := Equiv.swap (g c) d * g

theorem redirect_self (g : Equiv.Perm Int) (c d : Int) : redirect g c d c = d :=
  Equiv.swap_apply_left _ _

theorem redirect_of_ne {e : Int} (hc : e ≠ c) (hd : g e ≠ d) : redirect g c d e = g e :=
  Equiv.swap_apply_of_ne_of_ne (g.injective.ne hc) hd

/-- In a type that mentions neither, nothing changes. -/
theorem relabel_redirect {t : Ty} (hc : c ∉ t.skolems) (hd : d ∉ t.skolems.map g) :
    t.relabel f (redirect g c d) = t.relabel f g := by
  refine Ty.relabel_congr ⟨fun _ _ => rfl, fun e he => redirect_of_ne ?_ ?_⟩
  · rintro rfl
    exact hc he
  · rintro rfl
    exact hd (List.mem_map_of_mem he)

theorem Faithful.redirect (h : Faithful f g U U') (hc : ∀ m, U m → c ∉ m.scope)
    (hd : ∀ m, U' m → d ∉ m.scope) : Faithful f (redirect g c d) U U' where
  maps := h.maps
  inj := h.inj
  scopes m hm e := by
    have hdm := hd (f m) (h.maps m hm)
    have hgc : g c ∉ (f m).scope := fun hg => hc m hm ((h.scopes m hm c).1 hg)
    rcases eq_or_ne e c with rfl | hec
    · rw [redirect_self]
      exact iff_of_false hdm (hc m hm)
    · rcases eq_or_ne (g e) d with hed | hed
      · have hval : RankN.redirect g c d e = g c := by
          simp [RankN.redirect, hed]
        rw [hval, ← h.scopes m hm e, hed]
        exact iff_of_false hgc hdm
      · rw [redirect_of_ne hec hed, h.scopes m hm e]

end

end RankN
