import RankN.Proofs.Relabelling
import RankN.Proofs.Steps
import Mathlib.Order.Directed
import Mathlib.Data.Finset.Order

/-!
# Making types equal, without a table

`Equating U t u σ v` says what it comes to when two types are made equal that have no solved
metavariables in them: `σ` is what gets filled in for metavariables, and `v` is the kind of the error
that it ends with, if there is one. What was filled in before the error counts as well. The types
are compared from left to right, and what the first parts fill in is filled into the second ones.

**Choices.** The relation leaves two things open. Of two metavariables either may be filled in with
the other, and for a quantified type any constant will do that is mentioned nowhere: not in the
types, and not in the scope of a metavariable in play, which are those in `U`.

**Uniqueness.** The choices do not matter. If the same two types, relabelled, are made equal in
another way, it ends with an error of the same kind or without, and what is filled in is the same up
to an exchange of metavariables of equal scope (`Equating.unique`). The sides of the two types do
not matter either, which is how the relation is built (`Equating.symm`).
-/

namespace RankN

/-- What an error is, apart from what it is about. -/
inductive TypeError.Kind where
  | unbound
  | mismatch
  | escape (why : Obstacle)
  | notFunction
  | unsynthesizable
  | notAllocated
  | absentSolution
  | alreadySolved
  | noExpr
  | noEnv
  | other
deriving DecidableEq

/-- The kind of an error; of an escape, also its reason. -/
def TypeError.kind : TypeError → TypeError.Kind
  | .unbound _ => .unbound
  | .mismatch _ _ => .mismatch
  | .escape _ _ why => .escape why
  | .notFunction _ _ => .notFunction
  | .unsynthesizable _ => .unsynthesizable
  | .notAllocated _ => .notAllocated
  | .absentSolution _ => .absentSolution
  | .alreadySolved _ => .alreadySolved
  | .noExpr => .noExpr
  | .noEnv => .noEnv
  | .other _ => .other

/-- How it ends to make `m` equal to `t`: what is filled in, and the kind of the error. -/
def settling (m : MVar) (t : Ty) : (MVar → Ty) × Option TypeError.Kind :=
  if t = .mvar m then (.mvar, none)
  else match obstacle? {} m t with
    | some why => (.mvar, some (.escape why))
    | none =>
      if t = .absent then (.mvar, some .absentSolution) else (Function.update .mvar m t, none)

section

variable {m : MVar} {t : Ty}

theorem settling_self (m : MVar) : settling m (.mvar m) = (.mvar, none) := by simp [settling]

theorem settling_blocked (hne : t ≠ .mvar m) {why : Obstacle} (h : obstacle? {} m t = some why) :
    settling m t = (.mvar, some (.escape why)) := by
  simp [settling, hne, h]

theorem settling_absent (m : MVar) : settling m .absent = (.mvar, some .absentSolution) := by
  simp [settling, obstacle?_empty, obstacleWith]

theorem settling_free (h : obstacle? {} m t = none) (ht : t ≠ .absent) :
    settling m t = (Function.update .mvar m t, none) := by
  have hne : t ≠ .mvar m := by
    rintro rfl
    simp [obstacle?_empty, obstacleWith] at h
  simp [settling, hne, h, ht]

/-- The ways in which a metavariable is made equal to a type. -/
inductive Settled (m : MVar) : Ty → Prop
  | same : Settled m (.mvar m)
  | blocked {t : Ty} {why : Obstacle} : t ≠ .mvar m → obstacle? {} m t = some why → Settled m t
  | absent : Settled m .absent
  | free {t : Ty} : obstacle? {} m t = none → t ≠ .absent → Settled m t

theorem settled (m : MVar) (t : Ty) : Settled m t := by
  by_cases hself : t = .mvar m
  · subst hself
    exact .same
  · cases h : obstacle? {} m t with
    | some why => exact .blocked hself h
    | none =>
      by_cases habsent : t = .absent
      · subst habsent
        exact .absent
      · exact .free h habsent

end

/-- A type without parts. -/
def Ty.IsLeaf : Ty → Prop
  | .all .. | .arrow .. | .app .. => False
  | _ => True

/-- The types `t` and `u` have the same form, with two parts each: `p` and `q`, `p'` and `q'`. -/
inductive Ty.Parts : Ty → Ty → Ty → Ty → Ty → Ty → Prop
  | arrow {k k' : Nat} {p q p' q' : Ty} : Parts (.arrow k p q) (.arrow k' p' q') p p' q q'
  | app {k k' : Nat} {p q p' q' : Ty} : Parts (.app k p q) (.app k' p' q') p p' q q'

/-- Making two types equal fills in `σ`, and ends with an error of kind `v` or without. The
metavariables in play are those in `U`. -/
inductive Equating (U : MVar → Prop) : Ty → Ty → (MVar → Ty) → Option TypeError.Kind → Prop
  | leaf {t : Ty} : t.IsLeaf → Equating U t t .mvar none
  | first {t u p p' q q' : Ty} {σ : MVar → Ty} {e : TypeError.Kind} : t.Parts u p p' q q' →
    Equating U p p' σ (some e) → Equating U t u σ (some e)
  | both {t u p p' q q' : Ty} {σ τ : MVar → Ty} {v : Option TypeError.Kind} :
    t.Parts u p p' q q' → Equating U p p' σ none → Equating U (q.fill σ) (q'.fill σ) τ v →
    Equating U t u (fun m => (σ m).fill τ) v
  | all {k k' : Nat} {x y : String} {t u : Ty} {c : Int} {σ : MVar → Ty}
    {v : Option TypeError.Kind} : c ∉ t.skolems → c ∉ u.skolems → (∀ m, U m → c ∉ m.scope) →
    Equating U (t.replace x (.skolem c)) (u.replace y (.skolem c)) σ v →
    Equating U (.all k x t) (.all k' y u) σ v
  | left {m : MVar} {t : Ty} : Equating U (.mvar m) t (settling m t).1 (settling m t).2
  | right {m : MVar} {t : Ty} : Equating U t (.mvar m) (settling m t).1 (settling m t).2
  | clash {t u : Ty} : t ≠ u → t.Clashes u → Equating U t u .mvar (some .mismatch)

namespace Ty

variable {f : MVar → MVar} {g : Int → Int} {P : MVar → Prop} {Q : Int → Prop}
  {t u p p' q q' : Ty}

theorem Parts.symm (h : t.Parts u p p' q q') : u.Parts t p' p q' q := by
  cases h with
  | arrow => exact .arrow
  | app => exact .app

theorem Parts.relabel (h : t.Parts u p p' q q') :
    (t.relabel f g).Parts (u.relabel f g) (p.relabel f g) (p'.relabel f g) (q.relabel f g)
      (q'.relabel f g) := by
  cases h with
  | arrow => exact .arrow
  | app => exact .app

theorem Parts.leaves (h : t.Parts u p p' q q') : t.Leaves P Q ↔ p.Leaves P Q ∧ q.Leaves P Q := by
  cases h with
  | arrow => exact leaves_arrow
  | app => exact leaves_app

theorem Clashes.symm (h : t.Clashes u) : u.Clashes t := by
  cases t <;> cases u <;> simp_all [Clashes]

theorem Clashes.relabel (h : t.Clashes u) : (t.relabel f g).Clashes (u.relabel f g) := by
  cases t <;> cases u <;> simp_all [Clashes]

theorem Clashes.relabel_ne (hg : g.Injective) (h : t.Clashes u) (hne : t ≠ u) :
    t.relabel f g ≠ u.relabel f g := by
  cases t <;> cases u <;> simp_all [Clashes, hg.eq_iff]

theorem IsLeaf.relabel (h : t.IsLeaf) : (t.relabel f g).IsLeaf := by
  cases t <;> simp_all [IsLeaf]

end Ty

namespace Equating

variable {U U' : MVar → Prop} {t u p p' q q' : Ty} {σ σ' : MVar → Ty}
  {v v' : Option TypeError.Kind} {m : MVar}

/-! ## What is given determines the rule -/

theorem of_leaf (ht : t.IsLeaf) (h : Equating U t t σ v) : σ = .mvar ∧ v = none := by
  cases h with
  | leaf => exact ⟨rfl, rfl⟩
  | first hp | both hp => cases hp <;> exact ht.elim
  | all => exact ht.elim
  | left | right => simp [settling_self]
  | clash h => exact absurd rfl h

theorem of_clash (hne : t ≠ u) (hc : t.Clashes u) (h : Equating U t u σ v) :
    σ = .mvar ∧ v = some .mismatch := by
  cases h with
  | leaf => exact absurd rfl hne
  | first hp | both hp => cases hp <;> exact hc.elim
  | all => exact hc.elim
  | left => exact hc.elim
  | right => exact hc.symm.elim
  | clash => exact ⟨rfl, rfl⟩

/-- Types with two parts are made equal part by part. -/
theorem of_parts (hp : t.Parts u p p' q q') (h : Equating U t u σ v) :
    (∃ e, v = some e ∧ Equating U p p' σ (some e)) ∨
      ∃ σ₁ σ₂, Equating U p p' σ₁ none ∧ Equating U (q.fill σ₁) (q'.fill σ₁) σ₂ v ∧
        σ = fun m => (σ₁ m).fill σ₂ := by
  cases h with
  | leaf h => cases hp <;> exact h.elim
  | first hp' h =>
    refine .inl ⟨_, rfl, ?_⟩
    cases hp <;> cases hp' <;> exact h
  | both hp' h h' =>
    refine .inr ⟨_, _, ?_, ?_, rfl⟩
    · cases hp <;> cases hp' <;> exact h
    · cases hp <;> cases hp' <;> exact h'
  | all => cases hp
  | left => cases hp
  | right => cases hp
  | clash _ hc => cases hp <;> exact hc.elim

theorem of_all {k k' : Nat} {x y : String} (h : Equating U (.all k x t) (.all k' y u) σ v) :
    ∃ c, c ∉ t.skolems ∧ c ∉ u.skolems ∧ (∀ m, U m → c ∉ m.scope) ∧
      Equating U (t.replace x (.skolem c)) (u.replace y (.skolem c)) σ v := by
  cases h with
  | leaf h => exact h.elim
  | first hp | both hp => cases hp
  | all ht hu hU h => exact ⟨_, ht, hu, hU, h⟩
  | clash _ hc => exact hc.elim

/-- A metavariable is solved by the type, or the type is a metavariable that is solved by it. -/
theorem of_mvar (h : Equating U (.mvar m) t σ v) :
    (σ, v) = settling m t ∨ ∃ k, t = .mvar k ∧ (σ, v) = settling k (.mvar m) := by
  cases h with
  | leaf => exact .inl (settling_self m).symm
  | first hp | both hp => cases hp
  | left => exact .inl rfl
  | right => exact .inr ⟨_, rfl, rfl⟩
  | clash _ hc => exact hc.elim

/-! ## Sides do not matter, and a type is equal to itself -/

theorem symm (h : Equating U t u σ v) : Equating U u t σ v := by
  induction h with
  | leaf ht => exact .leaf ht
  | first hp _ ih => exact .first hp.symm ih
  | both hp _ _ ih ih' => exact .both hp.symm ih ih'
  | all ht hu hU _ ih => exact .all hu ht hU ih
  | left => exact .right
  | right => exact .left
  | clash hne hc => exact .clash hne.symm hc.symm

/-- There is a constant that is mentioned nowhere. -/
theorem exists_fresh {N : Int} (hU : ∀ m, U m → ∀ c ∈ m.scope, c < N) (t : Ty) :
    ∃ c, c ∉ t.skolems ∧ ∀ m, U m → c ∉ m.scope := by
  obtain ⟨b, hb⟩ := (N :: t.skolems).toFinset.exists_le
  have hlt : ∀ c ∈ N :: t.skolems, c ≤ b := fun c hc => hb c (List.mem_toFinset.2 hc)
  refine ⟨b + 1, fun hc => ?_, fun m hm hc => ?_⟩
  · have := hlt _ (List.mem_cons_of_mem _ hc)
    omega
  · have := hU m hm _ hc
    have := hlt N List.mem_cons_self
    omega

theorem refl {N : Int} (hU : ∀ m, U m → ∀ c ∈ m.scope, c < N) (t : Ty) :
    Equating U t t .mvar none := by
  have parts : ∀ {t p q : Ty}, t.Parts t p p q q → Equating U p p .mvar none →
      Equating U q q .mvar none → Equating U t t .mvar none := by
    intro t p q hp h h'
    have hq : q.fill .mvar = q := Ty.fill_eq_self fun _ _ => rfl
    exact .both (τ := .mvar) hp h (by rwa [hq])
  -- Opening a quantifier replaces the body, but leaves its size.
  induction hn : t.size using Nat.strong_induction_on generalizing t with
  | _ n ih =>
    subst hn
    cases t with
    | arrow k p q =>
      exact parts .arrow (ih _ (by simp only [Ty.size]; omega) p rfl)
        (ih _ (by simp only [Ty.size]; omega) q rfl)
    | app k p q =>
      exact parts .app (ih _ (by simp only [Ty.size]; omega) p rfl)
        (ih _ (by simp only [Ty.size]; omega) q rfl)
    | all k x body =>
      obtain ⟨c, hc, hscope⟩ := exists_fresh hU body
      refine .all hc hc hscope (ih _ ?_ _ rfl)
      rw [Ty.size_replace rfl]
      exact Nat.lt_succ_self _
    | _ => exact .leaf trivial

/-! ## What is filled in -/

theorem leaves_settling {t : Ty} (hm : U m) (ht : t.Leaves U fun _ => True)
    (k : MVar) (hk : U k) :
    ((settling m t).1 k).Leaves (fun j => U j ∧ j.scope = k.scope) (· ∈ k.scope) := by
  have hself : (Ty.mvar k).Leaves (fun j => U j ∧ j.scope = k.scope) (· ∈ k.scope) := by
    simpa using hk
  cases settled m t with
  | same => rwa [settling_self]
  | blocked hne h => rwa [settling_blocked hne h]
  | absent => rwa [settling_absent]
  | free hfree hne =>
    obtain ⟨-, hfit⟩ := obstacle?_empty_eq_none.1 hfree
    rw [settling_free hfree hne]
    by_cases hkm : k = m
    · subst hkm
      simp only [Function.update_self]
      exact ⟨fun j hj => ⟨ht.1 j hj, hfit.1 j hj⟩, hfit.2⟩
    · simpa [Function.update_of_ne hkm] using hk

/-- Where metavariables in play are filled in, a type stays made of metavariables in play. -/
theorem leaves_fill
    (h : ∀ m, U m → (σ m).Leaves (fun k => U k ∧ k.scope = m.scope) (· ∈ m.scope))
    (ht : t.Leaves U fun _ => True) : (t.fill σ).Leaves U fun _ => True :=
  Ty.leaves_fill.2 <| ht.mono
    (fun m hm => (h m hm).mono (fun _ h => h.1) fun _ _ => trivial) fun _ h => h

/-- What is filled in for a metavariable fits its scope, and is made of metavariables in play. -/
theorem leaves (h : Equating U t u σ v) (ht : t.Leaves U fun _ => True)
    (hu : u.Leaves U fun _ => True) (m : MVar) (hm : U m) :
    (σ m).Leaves (fun k => U k ∧ k.scope = m.scope) (· ∈ m.scope) := by
  induction h generalizing m with
  | leaf | clash => simpa using hm
  | first hp _ ih => exact ih (hp.leaves.1 ht).1 (hp.symm.leaves.1 hu).1 m hm
  | @both t u p p' q q' σ τ v hp _ _ ih ih' =>
    rw [hp.leaves] at ht
    rw [hp.symm.leaves] at hu
    refine Ty.leaves_fill.2 ((ih ht.1 hu.1 m hm).mono (fun k hk => ?_) fun _ h => h)
    obtain ⟨hkU, hks⟩ := hk
    have := ih' (leaves_fill (ih ht.1 hu.1) ht.2) (leaves_fill (ih ht.1 hu.1) hu.2) k hkU
    rwa [hks] at this
  | all _ _ _ _ ih =>
    exact ih (Ty.leaves_replace ht (by simp)) (Ty.leaves_replace hu (by simp)) m hm
  | left => exact leaves_settling (by simpa using ht) hu m hm
  | right => exact leaves_settling (by simpa using hu) ht m hm

/-- Nothing is filled in for metavariables that are not in play. -/
theorem eq_mvar (h : Equating U t u σ v) (ht : t.Leaves U fun _ => True)
    (hu : u.Leaves U fun _ => True) (m : MVar) (hm : ¬ U m) : σ m = .mvar m := by
  have settling_eq : ∀ {k : MVar} {t : Ty}, U k → (settling k t).1 m = .mvar m := by
    intro k t hk
    have hmk : m ≠ k := fun heq => hm (heq ▸ hk)
    cases settled k t with
    | same => rw [settling_self]
    | blocked hne h => rw [settling_blocked hne h]
    | absent => rw [settling_absent]
    | free h hne => simp [settling_free h hne, hmk]
  induction h with
  | leaf | clash => rfl
  | first hp _ ih => exact ih (hp.leaves.1 ht).1 (hp.symm.leaves.1 hu).1
  | both hp h _ ih ih' =>
    rw [hp.leaves] at ht
    rw [hp.symm.leaves] at hu
    show (_ : Ty).fill _ = _
    rw [ih ht.1 hu.1]
    have hσ := h.leaves ht.1 hu.1
    exact ih' (leaves_fill hσ ht.2) (leaves_fill hσ hu.2)
  | all _ _ _ _ ih => exact ih (Ty.leaves_replace ht (by simp)) (Ty.leaves_replace hu (by simp))
  | left => exact settling_eq (by simpa using ht)
  | right => exact settling_eq (by simpa using hu)

end Equating

/-! ## Uniqueness -/

section

variable {U U' : MVar → Prop} {f : MVar → MVar} {g : Equiv.Perm Int} {t u : Ty}
  {σ σ' : MVar → Ty} {v v' : Option TypeError.Kind} {m k : MVar}

/-- What is filled in by `σ'` is what is filled in by `σ`, relabelled, up to an exchange. -/
def Varies (U : MVar → Prop) (f : MVar → MVar) (g : Int → Int) (σ σ' : MVar → Ty) : Prop :=
  ∃ π, Exchanges U π ∧ ∀ m, U m → σ' (f m) = (σ m).relabel (f ∘ π) g

theorem settling_mvar (hne : k ≠ m) : settling m (.mvar k) =
    if m.scope = k.scope then (Function.update .mvar m (.mvar k), none)
    else (.mvar, some (.escape .scopeMismatch)) := by
  by_cases hs : m.scope = k.scope
  · simp [settling, obstacle?_empty, obstacleWith, hne, hs]
  · simp [settling, obstacle?_empty, obstacleWith, hne, hs]

/-- It makes no difference which of two metavariables is solved by the other one. -/
theorem settling_comm (hm : U m) (hk : U k) :
    (settling k (.mvar m)).2 = (settling m (.mvar k)).2 ∧
      Varies U id id (settling m (.mvar k)).1 (settling k (.mvar m)).1 := by
  rcases eq_or_ne k m with rfl | hne
  · exact ⟨rfl, 1, exchanges_one U, fun j _ => (Ty.relabel_id _).symm⟩
  rw [settling_mvar hne, settling_mvar hne.symm]
  by_cases hs : m.scope = k.scope
  · rw [if_pos hs, if_pos hs.symm]
    refine ⟨rfl, Equiv.swap m k, exchanges_swap hm hk hs, fun j _ => ?_⟩
    rcases eq_or_ne j m with rfl | hjm
    · simp [hne.symm]
    · rcases eq_or_ne j k with rfl | hjk
      · simp [hne]
      · simp [hjm, hjk, Equiv.swap_apply_of_ne_of_ne hjm hjk]
  · rw [if_neg hs, if_neg (Ne.symm hs)]
    exact ⟨rfl, 1, exchanges_one U, fun j _ => rfl⟩

theorem settling_relabel (hf : Faithful f g U U') (hm : U m) (ht : ∀ k ∈ t.mvars, U k) :
    (settling (f m) (t.relabel f g)).2 = (settling m t).2 ∧
      ∀ k, U k → (settling (f m) (t.relabel f g)).1 (f k) = ((settling m t).1 k).relabel f g := by
  cases settled m t with
  | same =>
    rw [Ty.relabel, settling_self, settling_self]
    exact ⟨rfl, fun k _ => rfl⟩
  | blocked hne h =>
    have hne' : t.relabel f g ≠ .mvar (f m) := by
      cases t with
      | mvar k => simpa using fun heq => hne (congrArg Ty.mvar (hf.inj k m (ht k (by simp)) hm heq))
      | _ => simp
    rw [settling_blocked hne h, settling_blocked hne' ((obstacle?_relabel hf hm ht).trans h)]
    exact ⟨rfl, fun k _ => rfl⟩
  | absent =>
    rw [Ty.relabel, settling_absent, settling_absent]
    exact ⟨rfl, fun k _ => rfl⟩
  | free h hne =>
    have hne' : t.relabel f g ≠ .absent := by cases t <;> simp_all
    rw [settling_free h hne, settling_free ((obstacle?_relabel hf hm ht).trans h) hne']
    refine ⟨rfl, fun k hk => ?_⟩
    by_cases hkm : k = m
    · simp [hkm]
    · have hfkm : f k ≠ f m := fun heq => hkm (hf.inj k m hk hm heq)
      simp [hkm, hfkm]

/-- A metavariable on the left is solved, or solves another one, which is the same. -/
theorem Equating.unique_mvar (h : Equating U' (.mvar (f m)) (t.relabel f g) σ' v')
    (hf : Faithful f g U U') (hm : U m) (ht : ∀ k ∈ t.mvars, U k) :
    v' = (settling m t).2 ∧ Varies U f g (settling m t).1 σ' := by
  rcases h.of_mvar with h | ⟨k', hk', h⟩
  · obtain ⟨hv, hσ⟩ := settling_relabel hf hm ht
    rw [← h] at hv hσ
    exact ⟨hv, 1, exchanges_one U, hσ⟩
  · cases t with
    | mvar k =>
      cases hk'
      have hk : U k := ht k (by simp)
      obtain ⟨hv, hσ⟩ := settling_relabel (t := .mvar m) hf hk (by simpa using hm)
      obtain ⟨hv₀, π, hπ, hσ₀⟩ := settling_comm hm hk
      rw [show settling (f k) ((Ty.mvar m).relabel f g) = (σ', v') from h.symm] at hv hσ
      refine ⟨hv.trans hv₀, π, hπ, fun j hj => ?_⟩
      calc σ' (f j) = ((settling k (.mvar m)).1 j).relabel f g := hσ j hj
        _ = (((settling m (.mvar k)).1 j).relabel π id).relabel f g :=
          congrArg (Ty.relabel f g) (hσ₀ j hj)
        _ = ((settling m (.mvar k)).1 j).relabel (f ∘ π) g := Ty.relabel_relabel _
    | _ => simp at hk'

/-- **Uniqueness.** Types that are relabelled faithfully are made equal with the same end, and with
the same filled in up to an exchange of metavariables. -/
theorem Equating.unique (h : Equating U t u σ v)
    (h' : Equating U' (t.relabel f g) (u.relabel f g) σ' v') (hf : Faithful f g U U')
    (ht : t.Leaves U fun _ => True) (hu : u.Leaves U fun _ => True) :
    v' = v ∧ Varies U f g σ σ' := by
  induction h generalizing f g σ' v' with
  | leaf hleaf =>
    obtain ⟨rfl, rfl⟩ := h'.of_leaf hleaf.relabel
    exact ⟨rfl, 1, exchanges_one U, fun m _ => rfl⟩
  | clash hne hc =>
    obtain ⟨rfl, rfl⟩ := h'.of_clash (hc.relabel_ne g.injective hne) hc.relabel
    exact ⟨rfl, 1, exchanges_one U, fun m _ => rfl⟩
  | first hp _ ih =>
    rcases h'.of_parts hp.relabel with ⟨e, rfl, h₁⟩ | ⟨σ₁, σ₂, h₁, -, -⟩
    · exact ih h₁ hf (hp.leaves.1 ht).1 (hp.symm.leaves.1 hu).1
    · cases (ih h₁ hf (hp.leaves.1 ht).1 (hp.symm.leaves.1 hu).1).1
  | @both t u p p' q q' σ τ v hp h₁ _ ih₁ ih₂ =>
    rw [hp.leaves] at ht
    rw [hp.symm.leaves] at hu
    rcases h'.of_parts hp.relabel with ⟨e, rfl, h₁'⟩ | ⟨σ₁, σ₂, h₁', h₂', rfl⟩
    · cases (ih₁ h₁' hf ht.1 hu.1).1
    · obtain ⟨-, π₁, hπ₁, hσ₁⟩ := ih₁ h₁' hf ht.1 hu.1
      rw [Ty.relabel_fill fun m hm => hσ₁ m (ht.2.1 m hm),
        Ty.relabel_fill fun m hm => hσ₁ m (hu.2.1 m hm)] at h₂'
      have hσ := h₁.leaves ht.1 hu.1
      obtain ⟨hv, π₂, hπ₂, hσ₂⟩ := ih₂ h₂' (hf.comp hπ₁) (leaves_fill hσ ht.2)
        (leaves_fill hσ hu.2)
      refine ⟨hv, π₁ * π₂, hπ₁.mul hπ₂, fun m hm => ?_⟩
      show (σ₁ (f m)).fill σ₂ = _
      rw [hσ₁ m hm]
      exact Ty.relabel_fill fun k hk => hσ₂ k ((hσ m hm).1 k hk).1
  | @all k k' x y t u c σ v hct hcu hcU h ih =>
    obtain ⟨d, hdt, hdu, hdU, h'⟩ := h'.of_all
    rw [Ty.skolems_relabel] at hdt hdu
    -- The constants chosen here and there correspond from now on.
    have open_ : ∀ {z : String} {b : Ty}, c ∉ b.skolems → d ∉ b.skolems.map g →
        (b.relabel f g).replace z (.skolem d) =
          (b.replace z (.skolem c)).relabel f (redirect g c d) := by
      intro z b hc hd
      rw [Ty.relabel_replace, relabel_redirect hc hd, Ty.relabel, redirect_self]
    rw [open_ hct hdt, open_ hcu hdu] at h'
    have ht' : (t.replace x (.skolem c)).Leaves U fun _ => True := Ty.leaves_replace ht (by simp)
    have hu' : (u.replace y (.skolem c)).Leaves U fun _ => True := Ty.leaves_replace hu (by simp)
    obtain ⟨hv, π, hπ, hσ⟩ := ih h' (hf.redirect hcU hdU) ht' hu'
    refine ⟨hv, π, hπ, fun m hm => ?_⟩
    -- What is filled in for `m` fits its scope, and the constants are in no scope.
    have hfit := (h.leaves ht' hu' m hm).2
    rw [hσ m hm, relabel_redirect (fun hc => hcU m hm (hfit c hc))]
    intro hd
    obtain ⟨e, he, rfl⟩ := List.mem_map.1 hd
    exact hdU (f m) (hf.maps m hm) ((hf.scopes m hm e).2 (hfit e he))
  | left => exact unique_mvar h' hf (by simpa using ht) hu.1
  | right => exact unique_mvar h'.symm hf (by simpa using hu) ht.1

end

end RankN
