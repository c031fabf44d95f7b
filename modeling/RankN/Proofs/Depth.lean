import RankN.Proofs.Substitution
import Mathlib.Algebra.Order.BigOperators.Group.Finset

/-!
# How deep types are

`tb.DepthLe n t` says that the type `t`, read through the table, is at most `n` levels deep, where
following a solution counts as a level. In an acyclic table every type has a depth, because a chain
of solutions enters each slot at most once: `t.size + tb.weight` is a bound (`depthLe_size`).

Opening a quantifier makes nothing deeper. Solving a metavariable by a type of depth `k` makes other
types deeper by at most `k` (`DepthLe.write`), and leaves one metavariable less to solve
(`unsolved_write`).
-/

namespace RankN

namespace Table

variable {tb tb' : Table} {m : MVar} {t u : Ty} {n k : Nat}

/-- Read through the table, the type is at most `n` levels deep. -/
def DepthLe (tb : Table) : Nat → Ty → Prop
  | 0, _ => False
  | n + 1, .mvar m => ∀ u, tb.solution? m = some u → tb.DepthLe n u
  | n + 1, .arrow _ p q => tb.DepthLe n p ∧ tb.DepthLe n q
  | n + 1, .app _ f a => tb.DepthLe n f ∧ tb.DepthLe n a
  | n + 1, .all _ _ body => tb.DepthLe n body
  | _ + 1, .var _ | _ + 1, .skolem _ | _ + 1, .unknown .. | _ + 1, .absent => True

theorem DepthLe.mono (h : tb.DepthLe n t) (hk : n ≤ k) : tb.DepthLe k t := by
  induction n generalizing t k with
  | zero => exact h.elim
  | succ n ih =>
    obtain ⟨k, rfl⟩ : ∃ k', k = k' + 1 := ⟨k - 1, by omega⟩
    have hk' : n ≤ k := by omega
    cases t with
    | all _ _ body => exact ih (t := body) h hk'
    | arrow _ p q => exact ⟨ih (t := p) h.1 hk', ih (t := q) h.2 hk'⟩
    | app _ f a => exact ⟨ih (t := f) h.1 hk', ih (t := a) h.2 hk'⟩
    | mvar m => exact fun u hu => ih (h u hu) hk'
    | _ => trivial

theorem DepthLe.pos (h : tb.DepthLe n t) : 0 < n := by
  cases n with
  | zero => exact h.elim
  | succ n => omega

theorem DepthLe.congr (h : tb.DepthLe n t) (hs : ∀ m, tb'.solution? m = tb.solution? m) :
    tb'.DepthLe n t := by
  induction n generalizing t with
  | zero => exact h
  | succ n ih =>
    cases t with
    | all _ _ body => exact ih (t := body) h
    | arrow _ p q => exact ⟨ih (t := p) h.1, ih (t := q) h.2⟩
    | app _ f a => exact ⟨ih (t := f) h.1, ih (t := a) h.2⟩
    | mvar m => exact fun u hu => ih (h u (hs m ▸ hu))
    | _ => trivial

/-! ## Solving -/

/-- What does not lead to a metavariable is as deep as before when it is solved. -/
theorem DepthLe.write_of_not_reaches (h : tb.DepthLe n u) (hr : ¬ tb.Reaches u m) :
    (tb.write m t).DepthLe n u := by
  induction n generalizing u with
  | zero => exact h
  | succ n ih =>
    cases u with
    | all _ _ body => exact ih (u := body) h hr
    | arrow _ p q =>
      rw [reaches_arrow, not_or] at hr
      exact ⟨ih (u := p) h.1 hr.1, ih (u := q) h.2 hr.2⟩
    | app _ f a =>
      rw [reaches_app, not_or] at hr
      exact ⟨ih (u := f) h.1 hr.1, ih (u := a) h.2 hr.2⟩
    | mvar k =>
      intro v hv
      have hkm : k ≠ m := by
        rintro rfl
        exact hr ⟨k, by simp, .refl⟩
      rw [solution?_write_of_ne tb hkm] at hv
      exact ih (h v hv) fun hreach => hr ((reaches_solved hv).2 (.inr hreach))
    | _ => trivial

/-- **Solving makes types deeper by no more than the solution.** -/
theorem DepthLe.write (h : tb.DepthLe n u) (ho : tb.owns m) (ht : tb.DepthLe k t)
    (hr : ¬ tb.Reaches t m) : (tb.write m t).DepthLe (n + k) u := by
  induction n generalizing u with
  | zero => exact h.elim
  | succ n ih =>
    rw [Nat.add_right_comm]
    cases u with
    | all _ _ body => exact ih (u := body) h
    | arrow _ p q => exact ⟨ih (u := p) h.1, ih (u := q) h.2⟩
    | app _ f a => exact ⟨ih (u := f) h.1, ih (u := a) h.2⟩
    | mvar j =>
      intro v hv
      by_cases hjm : j = m
      · subst hjm
        rw [solution?_write_self ho] at hv
        cases hv
        exact (ht.write_of_not_reaches hr).mono (Nat.le_add_left k n)
      · rw [solution?_write_of_ne tb hjm] at hv
        exact ih (h v hv)
    | _ => trivial

/-- Solving leaves one metavariable less to solve. -/
theorem unsolved_write (ho : tb.owns m) (hm : tb.solution? m = none) (t : Ty) :
    (tb.write m t).unsolved + 1 = tb.unsolved := by
  obtain ⟨s, hs, hsm⟩ := owns_iff.1 ho
  obtain ⟨hi, hget⟩ := Array.getElem?_eq_some_iff.1 hs
  have hnone : s.solution = none := by
    have : tb.slot? m = some s := slot?_eq_some.2 ⟨hs, hsm⟩
    simpa [solution?, this] using hm
  have hpos : 0 < tb.slots.toList.countP (·.solution.isNone) := by
    refine List.countP_pos_iff.2 ⟨s, ?_, by simp [hnone]⟩
    exact hget ▸ Array.mem_toList_iff.2 (Array.getElem_mem hi)
  have hi' : m.id.toNat < tb.slots.toList.length := by simpa using hi
  unfold unsolved
  rw [write, if_pos ho, ← Array.countP_toList, ← Array.countP_toList, Array.toList_modify,
    List.modify_eq_set_get _ hi', List.countP_set hi']
  simp only [Array.getElem_toList, hget, hnone, Option.isNone_none, if_true, Option.isNone_some,
    Bool.false_eq_true, if_false]
  omega

/-! ## A bound -/

/-- What a slot adds to the depth of what is read through it. -/
def slotWeight (tb : Table) (i : Nat) : Nat :=
  (tb.slots[i]?.map fun s => s.solution.elim 0 Ty.size + 1).getD 0

theorem weight_eq_sum (tb : Table) : tb.weight = ∑ i ∈ Finset.range tb.size, tb.slotWeight i := by
  obtain ⟨⟨l⟩⟩ := tb
  rw [weight, ← Array.foldl_toList]
  simp only [size, slotWeight, List.size_toArray, List.getElem?_toArray]
  induction l using List.reverseRecOn with
  | nil => rfl
  | append_singleton l s ih =>
    rw [List.foldl_append, ih, List.length_append, List.length_singleton, Finset.sum_range_succ]
    have hsum : ∀ i ∈ Finset.range l.length,
        ((l[i]?).map fun s => s.solution.elim 0 Ty.size + 1).getD 0 =
          (((l ++ [s])[i]?).map fun s => s.solution.elim 0 Ty.size + 1).getD 0 := by
      intro i hi
      rw [List.getElem?_append_left (Finset.mem_range.1 hi)]
    rw [Finset.sum_congr rfl hsum]
    simp [Nat.add_assoc]

theorem slotWeight_of_solution (h : tb.solution? m = some t) :
    tb.slotWeight m.id.toNat = t.size + 1 := by
  cases hs : tb.slot? m with
  | none => simp [solution?, hs] at h
  | some s =>
    have hsol : s.solution = some t := by simpa [solution?, hs] using h
    simp [slotWeight, (slot?_eq_some.1 hs).1, hsol]

/-- If all that a type leads to is in the slots of `R`, their weight bounds its depth. -/
theorem Acyclic.depthLe_of_reach (ha : tb.Acyclic) (R : Finset Nat) (t : Ty)
    (hR : ∀ m ∈ t.mvars, tb.reach m ⊆ R) :
    tb.DepthLe (t.size + ∑ i ∈ R, tb.slotWeight i) t := by
  induction hc : R.card using Nat.strong_induction_on generalizing R t with
  | _ c ih =>
    induction t with
    | all n x body ihb =>
      rw [Ty.size, Nat.add_right_comm]
      exact ihb hR
    | arrow n p q ihp ihq =>
      simp only [Ty.mvars, List.mem_append] at hR
      rw [Ty.size, Nat.add_right_comm]
      exact ⟨(ihp fun m hm => hR m (.inl hm)).mono (by omega),
        (ihq fun m hm => hR m (.inr hm)).mono (by omega)⟩
    | app n f a ihf iha =>
      simp only [Ty.mvars, List.mem_append] at hR
      rw [Ty.size, Nat.add_right_comm]
      exact ⟨(ihf fun m hm => hR m (.inl hm)).mono (by omega),
        (iha fun m hm => hR m (.inr hm)).mono (by omega)⟩
    | mvar m =>
      show tb.DepthLe (1 + _) _
      rw [Nat.add_comm]
      intro u hu
      have hmem : m.id.toNat ∈ R := hR m (by simp) (mem_reach_self hu)
      -- The solution leads to fewer slots: its own is not among them.
      have hsub : ∀ k ∈ u.mvars, tb.reach k ⊆ R.erase m.id.toNat := by
        intro k hk i hi
        have hp : tb.Points m k := ⟨u, hu, hk⟩
        refine Finset.mem_erase.2 ⟨?_, hR m (by simp) (reach_subset hp hi)⟩
        rintro rfl
        exact ha.not_mem_reach hp hi
      have hcard : (R.erase m.id.toNat).card < c := hc ▸ Finset.card_erase_lt_of_mem hmem
      refine (ih _ hcard _ u hsub rfl).mono ?_
      rw [← Finset.add_sum_erase R _ hmem, slotWeight_of_solution hu]
      omega
    | _ =>
      show tb.DepthLe (1 + _) _
      rw [Nat.add_comm]
      trivial

/-- **In an acyclic table every type has a depth.** -/
theorem Acyclic.depthLe_size (ha : tb.Acyclic) (t : Ty) : tb.DepthLe (t.size + tb.weight) t := by
  rw [weight_eq_sum]
  refine ha.depthLe_of_reach _ t fun m _ i hi => ?_
  obtain ⟨k, rfl, ⟨u, hu⟩, -⟩ := mem_reach.1 hi
  exact Finset.mem_range.2 (lt_size_of_owns (owns_of_solution? hu))

theorem size_le_weight (h : tb.solution? m = some t) : t.size + 1 ≤ tb.weight := by
  rw [weight_eq_sum, ← slotWeight_of_solution h]
  exact Finset.single_le_sum (fun _ _ => Nat.zero_le _)
    (Finset.mem_range.2 (lt_size_of_owns (owns_of_solution? h)))

end Table

/-! ## Opening quantifiers -/

theorem depthLe_substWith {enter : Ty → StateM Run Ty} {x : String} {new t : Ty} {r : Run}
    {tb : Table} {n : Nat} (hr : ∀ u r, Run.Restamped r (enter u r).2)
    (he : ∀ u (r : Run) n, r.table = tb → tb.DepthLe n u → tb.DepthLe n (enter u r).1)
    (hnew : ∀ n, tb.DepthLe (n + 1) new) (htb : r.table = tb) (ht : tb.DepthLe n t) :
    tb.DepthLe n (substWith enter x new t r).1 := by
  induction t generalizing r n with
  | var y =>
    obtain ⟨n, rfl⟩ : ∃ k, n = k + 1 := ⟨n - 1, by have := ht.pos; omega⟩
    by_cases hy : y = x
    · simpa [substWith_var, hy] using hnew n
    · simpa [substWith_var, hy] using ht
  | all k y body ih =>
    obtain ⟨n, rfl⟩ : ∃ k, n = k + 1 := ⟨n - 1, by have := ht.pos; omega⟩
    by_cases hy : y = x
    · subst hy
      rwa [substWith_all_self]
    · rw [substWith_all_of_ne _ hy]
      exact ih htb ht
  | arrow k p q ihp ihq =>
    obtain ⟨n, rfl⟩ : ∃ k, n = k + 1 := ⟨n - 1, by have := ht.pos; omega⟩
    have hp : Run.Restamped r (substWith enter x new p r).2 := substWith_restamped hr p r
    rw [substWith_arrow]
    exact ⟨ihp htb ht.1, ihq (hp.table.trans htb) ht.2⟩
  | app k f a ihf iha =>
    obtain ⟨n, rfl⟩ : ∃ k, n = k + 1 := ⟨n - 1, by have := ht.pos; omega⟩
    have hf : Run.Restamped r (substWith enter x new f r).2 := substWith_restamped hr f r
    rw [substWith_app]
    exact ⟨ihf htb ht.1, iha (hf.table.trans htb) ht.2⟩
  | mvar m =>
    obtain ⟨n, rfl⟩ : ∃ k, n = k + 1 := ⟨n - 1, by have := ht.pos; omega⟩
    cases hm : r.table.solution? m with
    | none => rwa [substWith_mvar_none hm]
    | some u =>
      rw [substWith_mvar_some hm]
      exact he u r _ htb ((ht u (htb ▸ hm)).mono (Nat.le_succ n))
  | _ => exact ht

/-- **Opening a quantifier makes nothing deeper.** -/
theorem depthLe_subst {x : String} {new t : Ty} {r : Run} {n : Nat}
    (hnew : ∀ n, r.table.DepthLe (n + 1) new) (ht : r.table.DepthLe n t) :
    r.table.DepthLe n (subst x new t r).1 := by
  have main : ∀ k (t : Ty) (r' : Run) n, r'.table = r.table → r.table.DepthLe n t →
      r.table.DepthLe n (substWithin x new k t r').1 := by
    intro k
    induction k with
    | zero => exact fun t r' n _ h => h
    | succ k ih =>
      intro t r' n htb h
      exact depthLe_substWith (substWithin_restamped x new k) ih hnew htb h
  exact main _ t r n rfl ht

end RankN
