import RankN.Proofs.Determinacy
import RankN.Proofs.Totality

/-!
# The course that unification takes

What unification does with two types is settled by where their chains of solutions end: whether both
end in one node, and otherwise what the two ends look like. How it walks along the chains, and which
of the two types it walks along first, leaves no trace in the table. This file says so for all types
over metavariables of the run, whatever skolem constants are in them.

**Copies.** Opening a quantifier copies its body. `Copy` says what the copy is made of and which
stamps go into it. Nodes are made anew, but for those that bind the same name again.

**Courses.** `Course s a b v s'` says how the ends `a` and `b` are made equal at the stage `s`: the
error that it comes to, if any, and the stage that it leaves. A stage is what matters of a run: the
table, the next constant and the next stamp. The rules say nothing of sides: of two unsolved
metavariables either may be solved by the other, and the bodies of two quantified types may be copied
in either order. So a course can be read from both sides (`Course.symm`).

Main result: `unify_courses`. Unification takes a course from the ends of its two types.
-/

namespace RankN

open RankN.Action

/-! ## Where chains of solutions end -/

namespace Table

variable {tb : Table} {m : MVar} {t : Ty}

@[simp] theorem resolve_var (x : String) : tb.resolve (.var x) = .var x := rfl

@[simp] theorem resolve_skolem (id : Int) : tb.resolve (.skolem id) = .skolem id := rfl

@[simp] theorem resolve_unknown (n : Nat) (k : String) :
    tb.resolve (.unknown n k) = .unknown n k := rfl

@[simp] theorem resolve_absent : tb.resolve .absent = .absent := rfl

@[simp] theorem resolve_all (n : Nat) (x : String) (body : Ty) :
    tb.resolve (.all n x body) = .all n x body := rfl

@[simp] theorem resolve_arrow (n : Nat) (p q : Ty) :
    tb.resolve (.arrow n p q) = .arrow n p q := rfl

@[simp] theorem resolve_app (n : Nat) (f a : Ty) : tb.resolve (.app n f a) = .app n f a := rfl

/-- A chain of solutions ends in the type. -/
def Ends (tb : Table) (t : Ty) : Prop := ∀ m, t = .mvar m → tb.solution? m = none

theorem ends_of_ne (h : ∀ m, t ≠ .mvar m) : tb.Ends t := fun m ht => absurd ht (h m)

theorem ends_mvar (h : tb.solution? m = none) : tb.Ends (.mvar m) := by
  rintro k ⟨⟩
  exact h

theorem Ends.resolve (h : tb.Ends t) : tb.resolve t = t := by
  cases t with
  | mvar m => simp [Table.resolve, hops, resolveWithin, h m rfl]
  | _ => rfl

theorem Acyclic.resolve_solved (ha : tb.Acyclic) (h : tb.solution? m = some t) :
    tb.resolve (.mvar m) = tb.resolve t := by
  calc tb.resolve (.mvar m)
      = tb.resolveWith^[tb.hops] (tb.resolveWith id) (.mvar m) :=
        (ha.iterate_resolveWith _ _).symm
    _ = tb.resolveWith (tb.resolveWith^[tb.hops] id) (.mvar m) := by
        rw [← Function.iterate_succ_apply, Function.iterate_succ_apply']
    _ = tb.resolveWith^[tb.hops] id t := by simp only [resolveWith, h]
    _ = tb.resolve t := ha.iterate_resolveWith _ _

theorem Acyclic.ends_resolve (ha : tb.Acyclic) (t : Ty) : tb.Ends (tb.resolve t) := by
  induction t using ha.induction with
  | unsolved m hm =>
    rw [(ends_mvar hm).resolve]
    exact ends_mvar hm
  | solved m t hm ih => rwa [ha.resolve_solved hm]
  | _ => exact ends_of_ne (by simp)

theorem Acyclic.expand_resolve (ha : tb.Acyclic) (t : Ty) :
    tb.expand (tb.resolve t) = tb.expand t := by
  induction t using ha.induction with
  | unsolved m hm => rw [(ends_mvar hm).resolve]
  | solved m t hm ih => rw [ha.resolve_solved hm, ih, ha.expand_solved hm]
  | _ => rfl

/-- What holds of a type and of all solutions holds where the chain from the type ends. -/
theorem Acyclic.resolve_of {P : Ty → Prop} (ha : tb.Acyclic)
    (htb : ∀ m u, tb.solution? m = some u → P u) (ht : P t) : P (tb.resolve t) := by
  induction t using ha.induction with
  | unsolved m hm => rwa [(ends_mvar hm).resolve]
  | solved m t hm ih =>
    rw [ha.resolve_solved hm]
    exact ih (htb m t hm)
  | _ => exact ht

/-- **Solving a metavariable** makes the chains that ended in it end in its solution. -/
theorem Acyclic.resolve_write (ha : tb.Acyclic) (ho : tb.owns m) (hm : tb.solution? m = none)
    (ht : tb.Ends t) (hne : t ≠ .mvar m) (ha' : (tb.write m t).Acyclic) (u : Ty) :
    (tb.write m t).resolve u = if tb.resolve u = .mvar m then t else tb.resolve u := by
  have hother : ∀ k, k ≠ m → (tb.write m t).solution? k = tb.solution? k := fun k hk =>
    solution?_write_of_ne _ hk t
  induction u using ha.induction with
  | solved k w hk ih =>
    have hkm : k ≠ m := by
      rintro rfl
      rw [hm] at hk
      cases hk
    rw [ha'.resolve_solved ((hother k hkm).trans hk), ha.resolve_solved hk, ih]
  | unsolved k hk =>
    rw [(ends_mvar hk).resolve]
    by_cases hkm : k = m
    · subst hkm
      have hends : (tb.write k t).Ends t := by
        rintro j rfl
        rw [hother j fun hj => hne (congrArg Ty.mvar hj), ht j rfl]
      rw [if_pos rfl, ha'.resolve_solved (solution?_write_self ho t), hends.resolve]
    · rw [if_neg (by simpa using hkm), (ends_mvar ((hother k hkm).trans hk)).resolve]
  | _ => simp

/-- The table is acyclic, and its solutions mention its own metavariables only. -/
structure Sound (tb : Table) : Prop where
  acyclic : tb.Acyclic
  solutions : ∀ m t, tb.solution? m = some t → t.Owned tb

theorem Sound.owned_resolve (h : tb.Sound) (ht : t.Owned tb) : (tb.resolve t).Owned tb :=
  h.acyclic.resolve_of h.solutions ht

theorem Acyclic.write_free (ha : tb.Acyclic) (ho : tb.owns m) (hm : tb.solution? m = none)
    (hfree : obstacle? tb m t = none) : (tb.write m t).Acyclic := by
  have hocc : m ∉ (tb.expand t).mvars := ((obstacle?_eq_none ha hm).1 hfree).1
  exact ha.write ho fun hr => hocc (ha.mem_mvars_expand.2 ⟨hr, hm⟩)

theorem Sound.write (h : tb.Sound) (ho : tb.owns m) (hm : tb.solution? m = none)
    (hfree : obstacle? tb m t = none) (ht : t.Owned tb) : (tb.write m t).Sound := by
  refine ⟨h.acyclic.write_free ho hm hfree, fun k u hu => ?_⟩
  have hu' : u.Owned tb := by
    by_cases hk : k = m
    · subst hk
      rw [solution?_write_self ho] at hu
      cases hu
      exact ht
    · rw [solution?_write_of_ne _ hk] at hu
      exact h.solutions k u hu
  exact hu'.mono (fun j hj => by rwa [owns_write]) fun _ h => h

/-- The table is acyclic, and expands types as the other one does. -/
structure Restates (tb tb' : Table) : Prop where
  acyclic : tb'.Acyclic
  expand : ∀ t, tb'.expand t = tb.expand t

theorem Restates.trans {tb' tb'' : Table} (h : tb.Restates tb') (h' : tb'.Restates tb'') :
    tb.Restates tb'' :=
  ⟨h'.acyclic, fun t => (h'.expand t).trans (h.expand t)⟩

end Table

theorem restates_prune {r : Run} (ha : r.table.Acyclic) (t : Ty) :
    r.table.Restates (prune t r).2.table :=
  ⟨(prune_spec ha t).shortens.acyclic ha, expand_prune ha t⟩

/-! ## Copies -/

/-- In the end `t`, the variable `x` is replaced by `new`. The copy is made with the stamps from `i`
up to `j`. -/
inductive Copy (tb : Table) (x : String) (new : Ty) : Ty → Nat → Ty → Nat → Prop
  | here (i : Nat) : Copy tb x new (.var x) i new i
  | leaf {t : Ty} (i : Nat) : t.IsLeaf → t ≠ .var x → tb.Ends t → Copy tb x new t i t i
  | bound (k : Nat) (body : Ty) (i : Nat) : Copy tb x new (.all k x body) i (.all k x body) i
  | all {k : Nat} {y : String} {body body' : Ty} {i j : Nat} : y ≠ x →
    Copy tb x new (tb.resolve body) i body' j →
    Copy tb x new (.all k y body) i (.all j y body') (j + 1)
  | arrow {k : Nat} {p q p' q' : Ty} {i j l : Nat} : Copy tb x new (tb.resolve p) i p' j →
    Copy tb x new (tb.resolve q) j q' l → Copy tb x new (.arrow k p q) i (.arrow l p' q') (l + 1)
  | app {k : Nat} {p q p' q' : Ty} {i j l : Nat} : Copy tb x new (tb.resolve p) i p' j →
    Copy tb x new (tb.resolve q) j q' l → Copy tb x new (.app k p q) i (.app l p' q') (l + 1)

section

variable {tb : Table} {x : String} {new t t' : Ty} {i j : Nat} {r : Run}

theorem Copy.le (h : Copy tb x new t i t' j) : i ≤ j := by
  induction h with
  | here | leaf | bound => exact le_rfl
  | all _ _ ih => exact ih.trans (Nat.le_succ _)
  | arrow _ _ ihp ihq | app _ _ ihp ihq => exact (ihp.trans ihq).trans (Nat.le_succ _)

/-- A copy is an end itself. -/
theorem Copy.ends (h : Copy tb x new t i t' j) (hnew : tb.Ends new) : tb.Ends t' := by
  cases h with
  | here => exact hnew
  | leaf _ _ _ ht => exact ht
  | _ => exact Table.ends_of_ne (by simp)

theorem Copy.owned (h : Copy tb x new t i t' j) (htb : tb.Sound) (hnew : new.Owned tb)
    (ht : t.Owned tb) : t'.Owned tb := by
  induction h with
  | here => exact hnew
  | leaf | bound => exact ht
  | all _ _ ih => exact ih (htb.owned_resolve ht)
  | arrow _ _ ihp ihq =>
    have hpq := Ty.leaves_arrow.1 ht
    exact Ty.leaves_arrow.2 ⟨ihp (htb.owned_resolve hpq.1), ihq (htb.owned_resolve hpq.2)⟩
  | app _ _ ihp ihq =>
    have hpq := Ty.leaves_app.1 ht
    exact Ty.leaves_app.2 ⟨ihp (htb.owned_resolve hpq.1), ihq (htb.owned_resolve hpq.2)⟩

theorem copy_substWith {enter : Ty → StateM Run Ty} (ha : tb.Acyclic)
    (hr : ∀ u r, Run.Restamped r (enter u r).2)
    (he : ∀ m ∈ t.mvars, ∀ u, tb.solution? m = some u → ∀ r : Run, r.table = tb →
      Copy tb x new (tb.resolve u) r.stamps (enter u r).1 (enter u r).2.stamps)
    (h : r.table = tb) :
    Copy tb x new (tb.resolve t) r.stamps (substWith enter x new t r).1
      (substWith enter x new t r).2.stamps := by
  have part : ∀ (p : Ty) (r : Run), r.table = tb → (substWith enter x new p r).2.table = tb :=
    fun p r h => (substWith_restamped hr p r).table.trans h
  induction t generalizing r with
  | var y =>
    by_cases hy : y = x
    · subst hy
      simpa [substWith_var] using Copy.here r.stamps
    · have hleaf : Copy tb x new (.var y) r.stamps (.var y) r.stamps :=
        .leaf _ trivial (by simpa using hy) (Table.ends_of_ne (by simp))
      simpa [substWith_var, hy] using hleaf
  | all n y body ih =>
    by_cases hy : y = x
    · subst hy
      rw [substWith_all_self]
      exact .bound n body _
    · rw [substWith_all_of_ne n hy]
      exact .all hy (ih he h)
  | arrow n p q ihp ihq =>
    rw [substWith_arrow]
    exact .arrow (ihp (fun m hm => he m (by simp [hm])) h)
      (ihq (fun m hm => he m (by simp [hm])) (part p r h))
  | app n p q ihp ihq =>
    rw [substWith_app]
    exact .app (ihp (fun m hm => he m (by simp [hm])) h)
      (ihq (fun m hm => he m (by simp [hm])) (part p r h))
  | mvar m =>
    cases hm : r.table.solution? m with
    | none =>
      rw [substWith_mvar_none hm]
      rw [h] at hm
      have hends := Table.ends_mvar hm
      rw [hends.resolve]
      exact .leaf _ trivial (by simp) hends
    | some u =>
      rw [substWith_mvar_some hm]
      rw [h] at hm
      rw [ha.resolve_solved hm]
      exact he m (by simp) u hm r h
  | skolem | unknown | absent =>
    exact .leaf _ trivial (by simp) (Table.ends_of_ne (by simp))

/-- **Opening a quantifier** copies the end of its body. -/
theorem copy_openAll (ha : r.table.Acyclic) (x : String) (t new : Ty) :
    Copy r.table x new (r.table.resolve t) r.stamps (openAll x t new r).1
      (openAll x t new r).2.stamps := by
  have main : ∀ n (t : Ty) (r' : Run), r.table.Within n t → r'.table = r.table →
      Copy r.table x new (r.table.resolve t) r'.stamps (substWithin x new (n + 1) t r').1
        (substWithin x new (n + 1) t r').2.stamps := by
    intro n
    induction n with
    | zero =>
      intro t r' ht hr'
      refine copy_substWith ha (substWithin_restamped x new 0) (fun m hm u hu => ?_) hr'
      rw [ht.unsolved hm] at hu
      cases hu
    | succ n ih =>
      intro t r' ht hr'
      exact copy_substWith ha (substWithin_restamped x new (n + 1))
        (fun m hm u hu r'' hr'' => ih u r'' (ha.within_solution (ht m hm) hu) hr'') hr'
  exact main r.table.size t r (Table.within_size _ t) rfl

end

/-! ## Courses -/

/-- What matters of a run for the course of unification. -/
structure Stage where
  table : Table
  skolems : Nat
  stamps : Nat

/-- The stage that a run is at. -/
def Run.stage (r : Run) : Stage := ⟨r.table, r.skolems, r.stamps⟩

theorem Run.stage_log (e : Event) (r : Run) : (Run.log e r).2.stage = r.stage := by simp [stage]

/-- The bodies `t` and `u` of two quantified types are copied to `t'` and `u'`, with the next constant
for their variables, and with different stamps. -/
inductive Stage.Opens (s : Stage) (x : String) (t : Ty) (y : String) (u : Ty) :
    Ty → Ty → Stage → Prop
  | mk {t' u' : Ty} {s' : Stage} {i i' j j' : Nat} : s'.table = s.table →
    s'.skolems = s.skolems + 1 →
    Copy s.table x (.skolem s.skolems) (s.table.resolve t) i t' i' →
    Copy s.table y (.skolem s.skolems) (s.table.resolve u) j u' j' →
    s.stamps ≤ i → s.stamps ≤ j → i' ≤ s'.stamps → j' ≤ s'.stamps → i' ≤ j ∨ j' ≤ i →
    Opens s x t y u t' u' s'

/-- An unsolved metavariable meets another end. -/
structure Stage.Meets (s : Stage) (m : MVar) (t : Ty) : Prop where
  owns : s.table.owns m
  unsolved : s.table.solution? m = none
  ends : s.table.Ends t
  ne : t ≠ .mvar m

/-- How it goes to solve `m` by `t`. -/
inductive Stage.Settles (s : Stage) (m : MVar) (t : Ty) : Option TypeError.Kind → Stage → Prop
  | blocked {why : Obstacle} {s' : Stage} : obstacle? s.table m t = some why →
    s.table.Restates s'.table → Settles s m t (some (.escape why)) s'
  | absent : t = .absent → Settles s m t (some .absentSolution) s
  | free : obstacle? s.table m t = none → t ≠ .absent →
    Settles s m t none { s with table := s.table.write m t }

/-- How two ends are made equal. -/
inductive Course : Stage → Ty → Ty → Option TypeError.Kind → Stage → Prop
  | same (s : Stage) (a : Ty) : Course s a a none s
  | first {s s' : Stage} {a b p p' q q' : Ty} {e : TypeError.Kind} : a ≠ b →
    a.Parts b p p' q q' → Course s (s.table.resolve p) (s.table.resolve p') (some e) s' →
    Course s a b (some e) s'
  | both {s s₁ s' : Stage} {a b p p' q q' : Ty} {v : Option TypeError.Kind} : a ≠ b →
    a.Parts b p p' q q' → Course s (s.table.resolve p) (s.table.resolve p') none s₁ →
    Course s₁ (s₁.table.resolve q) (s₁.table.resolve q') v s' → Course s a b v s'
  | all {s s₁ s' : Stage} {k k' : Nat} {x y : String} {t u t' u' : Ty}
    {v : Option TypeError.Kind} : Ty.all k x t ≠ .all k' y u → s.Opens x t y u t' u' s₁ →
    Course s₁ t' u' v s' → Course s (.all k x t) (.all k' y u) v s'
  | left {s s' : Stage} {m : MVar} {t : Ty} {v : Option TypeError.Kind} : s.Meets m t →
    s.Settles m t v s' → Course s (.mvar m) t v s'
  | right {s s' : Stage} {m : MVar} {t : Ty} {v : Option TypeError.Kind} : s.Meets m t →
    s.Settles m t v s' → Course s t (.mvar m) v s'
  | clash {s s' : Stage} {a b : Ty} : a ≠ b → a.Clashes b → s.table.Restates s'.table →
    Course s a b (some .mismatch) s'

section

variable {s s' : Stage} {a b p q p' q' t u t' u' : Ty} {x y : String} {m : MVar}
  {v : Option TypeError.Kind}

theorem Stage.Opens.symm (h : s.Opens x t y u t' u' s') : s.Opens y u x t u' t' s' := by
  cases h with
  | mk htable hskolems ht hu hi hj hi' hj' hapart =>
    exact .mk htable hskolems hu ht hj hi hj' hi' hapart.symm

/-- **Sides do not matter.** -/
theorem Course.symm (h : Course s a b v s') : Course s b a v s' := by
  induction h with
  | same s a => exact .same s a
  | first hne hp _ ih => exact .first hne.symm hp.symm ih
  | both hne hp _ _ ih ih' => exact .both hne.symm hp.symm ih ih'
  | all hne ho _ ih => exact .all hne.symm ho.symm ih
  | left hm hs => exact .right hm hs
  | right hm hs => exact .left hm hs
  | clash hne hc hs => exact .clash hne.symm hc.symm hs

/-! What is given determines the rule. -/

theorem Ty.Parts.unique {p₁ p₁' q₁ q₁' : Ty} (h : a.Parts b p p' q q')
    (h' : a.Parts b p₁ p₁' q₁ q₁') : p = p₁ ∧ p' = p₁' ∧ q = q₁ ∧ q' = q₁' := by
  cases h <;> cases h' <;> exact ⟨rfl, rfl, rfl, rfl⟩

namespace Course

theorem of_eq (h : Course s a b v s') (hab : a = b) : v = none ∧ s' = s := by
  cases h with
  | same => exact ⟨rfl, rfl⟩
  | first hne | both hne | all hne | clash hne => exact absurd hab hne
  | left hm => exact absurd hab.symm hm.ne
  | right hm => exact absurd hab hm.ne

theorem of_parts (h : Course s a b v s') (hne : a ≠ b) (hp : a.Parts b p p' q q') :
    (∃ e, v = some e ∧ Course s (s.table.resolve p) (s.table.resolve p') (some e) s') ∨
      ∃ s₁, Course s (s.table.resolve p) (s.table.resolve p') none s₁ ∧
        Course s₁ (s₁.table.resolve q) (s₁.table.resolve q') v s' := by
  cases h with
  | same => exact absurd rfl hne
  | first _ hp' h =>
    obtain ⟨rfl, rfl, rfl, rfl⟩ := hp.unique hp'
    exact .inl ⟨_, rfl, h⟩
  | both _ hp' h h' =>
    obtain ⟨rfl, rfl, rfl, rfl⟩ := hp.unique hp'
    exact .inr ⟨_, h, h'⟩
  | all => cases hp
  | left => cases hp
  | right => cases hp
  | clash _ hc => cases hp <;> exact hc.elim

theorem of_all {k k' : Nat} (h : Course s (.all k x t) (.all k' y u) v s')
    (hne : Ty.all k x t ≠ .all k' y u) :
    ∃ t' u' s₁, s.Opens x t y u t' u' s₁ ∧ Course s₁ t' u' v s' := by
  cases h with
  | same => exact absurd rfl hne
  | first _ hp | both _ hp => cases hp
  | all _ ho h => exact ⟨_, _, _, ho, h⟩
  | clash _ hc => exact hc.elim

/-- A metavariable is solved by the other end, or that is a metavariable which is solved by it. -/
theorem of_mvar (h : Course s (.mvar m) t v s') (hne : t ≠ .mvar m) :
    (s.Meets m t ∧ s.Settles m t v s') ∨
      ∃ k, t = .mvar k ∧ s.Meets k (.mvar m) ∧ s.Settles k (.mvar m) v s' := by
  cases h with
  | same => exact absurd rfl hne
  | first _ hp | both _ hp => cases hp
  | left hm hs => exact .inl ⟨hm, hs⟩
  | right hm hs => exact .inr ⟨_, rfl, hm, hs⟩
  | clash _ hc => exact hc.elim

theorem of_clash (h : Course s a b v s') (hne : a ≠ b) (hc : a.Clashes b) :
    v = some .mismatch ∧ s.table.Restates s'.table := by
  cases h with
  | same => exact absurd rfl hne
  | first _ hp | both _ hp => cases hp <;> exact hc.elim
  | all => exact hc.elim
  | left => exact hc.elim
  | right => exact hc.symm.elim
  | clash _ _ h => exact ⟨rfl, h⟩

end Course

theorem Stage.Opens.table (h : s.Opens x t y u t' u' s') : s'.table = s.table := by
  cases h with
  | mk htable => exact htable

/-- Copies are ends. -/
theorem Stage.Opens.ends (h : s.Opens x t y u t' u' s') : s'.table.Ends t' ∧ s'.table.Ends u' := by
  cases h with
  | mk htable _ ht hu =>
    have hnew : s.table.Ends (.skolem s.skolems) := Table.ends_of_ne (by simp)
    rw [htable]
    exact ⟨ht.ends hnew, hu.ends hnew⟩

theorem Stage.Opens.owned (h : s.Opens x t y u t' u' s') (htb : s.table.Sound)
    (ht : t.Owned s.table) (hu : u.Owned s.table) :
    s'.table.Sound ∧ t'.Owned s'.table ∧ u'.Owned s'.table := by
  cases h with
  | mk htable _ hcopy hcopy' =>
    have hnew : (Ty.skolem s.skolems).Owned s.table := by simp [Ty.Owned]
    rw [htable]
    exact ⟨htb, hcopy.owned htb hnew (htb.owned_resolve ht),
      hcopy'.owned htb hnew (htb.owned_resolve hu)⟩

/-- **A course that comes to no error** leaves a sound table with the same metavariables. -/
theorem Course.sound (h : Course s a b v s') (htb : s.table.Sound) (ha : a.Owned s.table)
    (hb : b.Owned s.table) (hv : v = none) :
    s'.table.Sound ∧ ∀ m, s'.table.owns m = s.table.owns m := by
  have settles : ∀ {s s' : Stage} {m : MVar} {t : Ty} {v : Option TypeError.Kind},
      s.table.Sound → t.Owned s.table → s.Meets m t → s.Settles m t v s' → v = none →
      s'.table.Sound ∧ ∀ m, s'.table.owns m = s.table.owns m := by
    intro s s' m t v htb ht hm hs hv
    cases hs with
    | blocked | absent => cases hv
    | free hfree hne =>
      exact ⟨htb.write hm.owns hm.unsolved hfree ht, fun k => Table.owns_write ..⟩
  induction h with
  | same s a => exact ⟨htb, fun _ => rfl⟩
  | first | clash => cases hv
  | both _ hp _ _ ih ih' =>
    have hpq := hp.leaves.1 ha
    have hpq' := hp.symm.leaves.1 hb
    obtain ⟨htb₁, howns⟩ := ih htb (htb.owned_resolve hpq.1) (htb.owned_resolve hpq'.1) rfl
    have keep : ∀ {t : Ty}, t.Owned _ → (_ : Ty).Owned _ := fun {t} ht =>
      htb₁.owned_resolve (t := t) (ht.mono (fun m hm => (howns m).trans hm) fun _ h => h)
    obtain ⟨htb₂, howns'⟩ := ih' htb₁ (keep hpq.2) (keep hpq'.2) hv
    exact ⟨htb₂, fun m => (howns' m).trans (howns m)⟩
  | all _ ho _ ih =>
    obtain ⟨htb₁, ht, hu⟩ := ho.owned htb ha hb
    obtain ⟨htb', howns⟩ := ih htb₁ ht hu hv
    exact ⟨htb', fun m => (howns m).trans (by rw [ho.table])⟩
  | left hm hs => exact settles htb hb hm hs hv
  | right hm hs => exact settles htb ha hm hs hv

end

/-! ## Unification takes a course -/

section

variable {r : Run} {a b t : Ty} {m : MVar} {n : Nat}

/-- The action takes a course from two ends. -/
def Action.Takes (x : Solve Unit) (r : Run) (a b : Ty) : Prop :=
  x.Concludes r fun v r' => Course r.stage a b v r'.stage

/-- With `n` steps, unification takes a course from the ends of its types. -/
def UnifyCourses (n : Nat) : Prop :=
  ∀ (a b : Ty) (r : Run), r.table.Sound → a.Owned r.table → b.Owned r.table →
    (unifyWithin n a b).Takes r (r.table.resolve a) (r.table.resolve b)

/-- With `n` steps, solving takes a course from the ends of a metavariable and a type. -/
def SolveCourses (n : Nat) : Prop :=
  ∀ (m : MVar) (t : Ty) (r : Run), r.table.Sound → r.table.owns m → t.Owned r.table →
    (solveWithin n m t).Takes r (r.table.resolve (.mvar m)) (r.table.resolve t)

theorem Action.Takes.symm {x : Solve Unit} (h : x.Takes r a b) : x.Takes r b a :=
  Concludes.mono h fun _ _ h => h.symm

theorem UnifyCourses.both (ih : UnifyCourses n) (htb : r.table.Sound) {p p' q q' : Ty}
    (hne : a ≠ b) (hparts : a.Parts b p p' q q') (ha : a.Owned r.table) (hb : b.Owned r.table) :
    (do unifyWithin n p p'; unifyWithin n q q' : Solve Unit).Takes r a b := by
  have hpq := hparts.leaves.1 ha
  have hpq' := hparts.symm.leaves.1 hb
  refine ensures_bind.2
    (Ensures.mono (ih p p' r htb hpq.1 hpq'.1) (fun _ r₁ h => ?_) fun stop r₁ h => ?_)
  · obtain ⟨htb₁, howns⟩ := h.sound htb (htb.owned_resolve hpq.1) (htb.owned_resolve hpq'.1) rfl
    have keep : ∀ {t : Ty}, t.Owned r.table → t.Owned r₁.table := fun ht =>
      ht.mono (fun m hm => (howns m).trans hm) fun _ h => h
    show Concludes _ r₁ fun v r' => Course r.stage a b v r'.stage
    refine Concludes.mono (ih q q' r₁ htb₁ (keep hpq.2) (keep hpq'.2)) fun v r₂ h' => ?_
    exact .both hne hparts h h'
  · cases stop with
    | fault f => exact h
    | error why => exact .first hne hparts h

theorem opens_openBoth (ha : r.table.Acyclic) (x : String) (t : Ty) (y : String) (u : Ty) :
    r.stage.Opens x t y u (openBoth x t y u r).1.1 (openBoth x t y u r).1.2
      (openBoth x t y u r).2.stage := by
  have hrest := subst_restamped x (.skolem r.skolems) t (Run.newSkolem r).2
  have hrest' := subst_restamped y (.skolem r.skolems) u
    (openAll x t (.skolem r.skolems) (Run.newSkolem r).2).2
  have htable := hrest.table
  have hcopy := copy_openAll (r := (Run.newSkolem r).2) ha x t (.skolem r.skolems)
  have hcopy' := copy_openAll (r := (openAll x t (.skolem r.skolems) (Run.newSkolem r).2).2)
    (htable ▸ ha) y u (.skolem r.skolems)
  have hcopy'' := hcopy'
  rw [show (openAll x t (.skolem r.skolems) (Run.newSkolem r).2).2.table = r.table from htable]
    at hcopy''
  refine .mk (hrest'.table.trans htable) (hrest'.skolems.trans hrest.skolems) hcopy hcopy''
    le_rfl hcopy.le hcopy'.le le_rfl (.inl le_rfl)

theorem mismatch_courses (htb : r.table.Sound) (hne : a ≠ b) (hc : a.Clashes b) :
    (mismatch a b : Solve Unit).Takes r a b := by
  unfold mismatch Takes Concludes
  simp only [ensures_bind, ensures_lift]
  have h := restates_prune htb.acyclic a
  exact .clash hne hc (h.trans (restates_prune h.acyclic b))

theorem settle_courses (htb : r.table.Sound) (h : r.stage.Meets m t) :
    (settle m t).Takes r (.mvar m) t := by
  refine ensures_settle (fun why hwhy => ?_) fun hfree => ?_
  · exact .left h (.blocked hwhy (restates_prune htb.acyclic t))
  · refine ensures_assign h.owns h.unsolved (fun ht => ?_) fun hne => ?_
    · exact .left h (.absent ht)
    · exact .left h (.free hfree hne)

/-- Two quantified types are made equal by way of copies of their bodies. -/
theorem UnifyCourses.opened (ih : UnifyCourses n) (htb : r.table.Sound) {k k' : Nat} {x y : String}
    {t u : Ty} (hne : Ty.all k x t ≠ .all k' y u) (ht : t.Owned r.table) (hu : u.Owned r.table) :
    (do
      let c ← Run.newSkolem
      let t ← openAll x t (.skolem c)
      let u ← openAll y u (.skolem c)
      unifyWithin n t u : Solve Unit).Takes r (.all k x t) (.all k' y u) := by
  have hopens := opens_openBoth htb.acyclic x t y u
  obtain ⟨htb₁, ht', hu'⟩ := hopens.owned htb ht hu
  have hunify := ih (openBoth x t y u r).1.1 (openBoth x t y u r).1.2 (openBoth x t y u r).2 htb₁
    ht' hu'
  rw [show (openBoth x t y u r).2.table.resolve _ = _ from hopens.ends.1.resolve,
    show (openBoth x t y u r).2.table.resolve _ = _ from hopens.ends.2.resolve] at hunify
  refine concludes_lift_bind.2 (concludes_lift_bind.2 (concludes_lift_bind.2 ?_))
  exact Concludes.mono hunify fun v r' h => .all hne hopens h

theorem unifyWithin_courses_step (hunify : UnifyCourses n) (hsolve : SolveCourses n) :
    UnifyCourses (n + 1) := by
  intro a b r htb ha hb
  have hlog := Run.table_log (.unify a b) r
  unfold Takes
  rw [← Run.stage_log (.unify a b) r, ← hlog]
  rw [← hlog] at htb ha hb
  by_cases hab : a = b
  · subst hab
    rw [unifyWithin_succ, if_pos rfl]
    exact .same _ _
  have ends : ∀ {t u : Ty}, t.Clashes u → ∀ tb : Table, tb.resolve t = t := by
    intro t u hc tb
    cases t with
    | mvar m => exact hc.elim
    | _ => rfl
  refine ensures_unifyWithin (fun h => absurd h hab) ?_ ?_ ?_ ?_ ?_ fun _ hc => ?_
  · rintro k p q k' p' q' rfl rfl
    exact hunify.both htb hab .arrow ha hb
  · rintro k p q k' p' q' rfl rfl
    exact hunify.both htb hab .app ha hb
  · rintro k x t k' y u rfl rfl
    exact hunify.opened htb hab ha hb
  · rintro m rfl
    exact hsolve m b _ htb (by simpa [Ty.Owned] using ha) hb
  · rintro m rfl
    exact Takes.symm (hsolve m a _ htb (by simpa [Ty.Owned] using hb) ha)
  · rw [ends hc, ends hc.symm]
    exact mismatch_courses htb hab hc

theorem solveWithin_courses_step (hunify : UnifyCourses n) (hsolve : SolveCourses n) :
    SolveCourses (n + 1) := by
  intro m t r htb ho ht
  have hlog := Run.table_log (.solve m t) r
  unfold Takes
  rw [← Run.stage_log (.solve m t) r, ← hlog]
  rw [← hlog] at htb ho ht
  refine ensures_solveWithin ?_ ?_ ?_ ?_
  · rintro rfl
    exact .same _ _
  · intro u hu
    rw [← hlog] at hu
    rw [htb.acyclic.resolve_solved hu]
    exact hunify u t _ htb (htb.solutions m u hu) ht
  · rintro m' u - rfl hu
    rw [← hlog] at hu
    rw [htb.acyclic.resolve_solved hu]
    exact hsolve m u _ htb ho (htb.solutions m' u hu)
  · intro hm hne hends
    rw [← hlog] at hm hends
    rw [(Table.ends_mvar hm).resolve, Table.Ends.resolve hends]
    exact settle_courses htb ⟨ho, hm, hends, hne⟩

theorem unifyWithin_courses (n : Nat) : UnifyCourses n ∧ SolveCourses n := by
  induction n with
  | zero =>
    refine ⟨fun a b r _ _ _ => ?_, fun m t r _ _ _ => ?_⟩
    · rw [unifyWithin]
      exact rfl
    · rw [solveWithin]
      exact rfl
  | succ n ih => exact ⟨unifyWithin_courses_step ih.1 ih.2, solveWithin_courses_step ih.1 ih.2⟩

/-- **Unification takes a course** from the ends of its two types. -/
theorem unify_courses (htb : r.table.Sound) (ha : a.Owned r.table) (hb : b.Owned r.table) :
    (unify a b).Takes r (r.table.resolve a) (r.table.resolve b) :=
  ensures_bind.2 (ensures_get.2 ((unifyWithin_courses _).1 a b r htb ha hb))

end

end RankN
