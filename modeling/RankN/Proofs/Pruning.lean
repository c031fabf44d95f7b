import RankN.Ty.Prune
import RankN.Proofs.Expansion

/-!
# What pruning does

Pruning returns the expansion of a type, up to stamps, and on its way shortens the solutions it
passes. A table that was *shortened* means the same: every type has the expansion it had before,
the same metavariables are solved, and no solution leads further than before.

Main result: `prune_spec`.
-/

namespace RankN

open Relation

/-- The second table is the first one with some solutions replaced by what they mean. -/
structure Table.Shortens (tb tb' : Table) : Prop where
  size : tb'.size = tb.size
  mvarAt : ∀ i, tb'.mvarAt? i = tb.mvarAt? i
  unsolved : ∀ m, tb'.solution? m = none ↔ tb.solution? m = none
  points : ∀ a b, tb'.Points a b → TransGen tb.Points a b
  expand : ∀ t, tb'.expand t = tb.expand t
  leaves : ∀ P Q, (∀ m u, tb.solution? m = some u → u.Leaves P Q) →
    ∀ m u, tb'.solution? m = some u → u.Leaves P Q

namespace Table.Shortens

variable {tb tb' tb'' : Table} {m : MVar} {t u : Ty}

theorem refl (tb : Table) : tb.Shortens tb where
  size := rfl
  mvarAt _ := rfl
  unsolved _ := Iff.rfl
  points _ _ h := .single h
  expand _ := rfl
  leaves _ _ h := h

theorem trans (h : tb.Shortens tb') (h' : tb'.Shortens tb'') : tb.Shortens tb'' where
  size := h'.size.trans h.size
  mvarAt i := (h'.mvarAt i).trans (h.mvarAt i)
  unsolved m := (h'.unsolved m).trans (h.unsolved m)
  points a b hab := TransGen.closed (fun a b => h.points a b) a b (h'.points a b hab)
  expand t := (h'.expand t).trans (h.expand t)
  leaves P Q hP := h'.leaves P Q (h.leaves P Q hP)

theorem owns (h : tb.Shortens tb') (m : MVar) : tb'.owns m ↔ tb.owns m := by
  rw [Table.owns_iff_mvarAt?, Table.owns_iff_mvarAt?, h.mvarAt]

theorem acyclic (h : tb.Shortens tb') (ha : tb.Acyclic) : tb'.Acyclic := ha.of_points h.points

theorem solved (h : tb.Shortens tb') (hm : tb.solution? m = some t) :
    ∃ u, tb'.solution? m = some u := by
  cases hs : tb'.solution? m with
  | none =>
    rw [(h.unsolved m).1 hs] at hm
    cases hm
  | some u => exact ⟨u, rfl⟩

/-- In a shortened table solutions are not nested deeper. -/
theorem nesting_le (h : tb.Shortens tb') (m : MVar) : tb'.nesting m ≤ tb.nesting m := by
  refine Finset.card_le_card fun i hi => ?_
  obtain ⟨k, hk, ⟨t, ht⟩, hr⟩ := Table.mem_reach.1 hi
  refine Table.mem_reach.2 ⟨k, hk, ?_, ?_⟩
  · cases hs : tb.solution? k with
    | none =>
      rw [(h.unsolved k).2 hs] at ht
      cases ht
    | some u => exact ⟨u, rfl⟩
  · clear hk ht
    induction hr with
    | refl => exact .refl
    | tail _ hbc ih => exact ih.trans (h.points _ _ hbc).to_reflTransGen

theorem within (h : tb.Shortens tb') {n : Nat} (ht : tb.Within n t) : tb'.Within n t :=
  fun m hm => (h.nesting_le m).trans (ht m hm)

/-- Writing what a solved metavariable means into its slot shortens the table. -/
theorem write (ha : tb.Acyclic) (hm : tb.solution? m = some t)
    (hu : u.plain = tb.expand (.mvar m)) : tb.Shortens (tb.write m u) := by
  have ho := Table.owns_of_solution? hm
  have hmvars : u.mvars = (tb.expand t).mvars := by
    rw [← Ty.mvars_plain, hu, ha.expand_solved hm]
  have hpoints : ∀ a b, (tb.write m u).Points a b → TransGen tb.Points a b := by
    intro a b hab
    rcases (Table.points_write ho).1 hab with ⟨rfl, hb⟩ | ⟨-, hab⟩
    · rw [hmvars] at hb
      obtain ⟨c, hc, hcb⟩ := (ha.mem_mvars_expand.1 hb).1
      exact TransGen.head' ⟨t, hm, hc⟩ hcb
    · exact .single hab
  have ha' := ha.of_points hpoints
  refine ⟨Table.size_write .., Table.mvarAt?_write tb m u, fun k => ?_, hpoints, fun v => ?_,
    fun P Q h k v hv => ?_⟩
  · by_cases hk : k = m
    · subst hk
      simp [Table.solution?_write_self ho, hm]
    · rw [Table.solution?_write_of_ne tb hk]
  · induction v using ha'.induction with
    | var | skolem | unknown | absent => rfl
    | all n x body ih => simp [ih]
    | arrow n p q ihp ihq => simp [ihp, ihq]
    | app n f a ihf iha => simp [ihf, iha]
    | unsolved k hk =>
      have hkm : k ≠ m := by
        rintro rfl
        rw [Table.solution?_write_self ho] at hk
        cases hk
      rw [Table.expand_unsolved hk]
      rw [Table.solution?_write_of_ne tb hkm] at hk
      rw [Table.expand_unsolved hk]
    | solved k v hk ih =>
      rw [ha'.expand_solved hk, ih]
      by_cases hkm : k = m
      · subst hkm
        rw [Table.solution?_write_self ho] at hk
        cases hk
        rw [← hu]
        refine Table.expand_of_unsolved fun j hj => ?_
        rw [hmvars] at hj
        exact ha.unsolved_of_mem_expand hj
      · rw [Table.solution?_write_of_ne tb hkm] at hk
        rw [ha.expand_solved hk]
  · by_cases hk : k = m
    · subst hk
      rw [Table.solution?_write_self ho] at hv
      cases hv
      rw [← Ty.leaves_plain, hu, ha.expand_solved hm]
      exact ha.leaves_expand_of h (h k t hm)
    · rw [Table.solution?_write_of_ne tb hk] at hv
      exact h k v hv

end Table.Shortens

/-- The outcome of pruning `t` in the run `r`. -/
structure Pruned (r : Run) (t : Ty) (res : Ty × Run) : Prop where
  plain : res.1.plain = r.table.expand t
  shortens : r.table.Shortens res.2.table
  frame : res.2 = { r with table := res.2.table, stamps := res.2.stamps }

section

variable {enter : Ty → StateM Run Ty} {t : Ty} {r : Run}

theorem pruneWith_mvar (m : MVar) (r : Run) :
    pruneWith enter (.mvar m) r = (match r.table.solution? m with
      | some t => do
        let t ← enter t
        modify fun r => { r with table := r.table.write m t }
        return t
      | none => pure (.mvar m) : StateM Run Ty) r := rfl

theorem pruneWith_mvar_none {m : MVar} (h : r.table.solution? m = none) :
    pruneWith enter (.mvar m) r = (.mvar m, r) := by
  rw [pruneWith_mvar, h]
  rfl

theorem pruneWith_mvar_some {m : MVar} {u : Ty} (h : r.table.solution? m = some u) :
    pruneWith enter (.mvar m) r =
      ((enter u r).1, { (enter u r).2 with table := (enter u r).2.table.write m (enter u r).1 }) := by
  rw [pruneWith_mvar, h]
  rfl

theorem pruneWith_arrow (n : Nat) (p q : Ty) (r : Run) :
    pruneWith enter (.arrow n p q) r =
      (if (pruneWith enter p r).1 = p ∧ (pruneWith enter q (pruneWith enter p r).2).1 = q then
        pure (.arrow n p q)
      else Run.newArrow (pruneWith enter p r).1 (pruneWith enter q (pruneWith enter p r).2).1 :
        StateM Run Ty) (pruneWith enter q (pruneWith enter p r).2).2 := rfl

theorem pruneWith_app (n : Nat) (f a : Ty) (r : Run) :
    pruneWith enter (.app n f a) r =
      (if (pruneWith enter f r).1 = f ∧ (pruneWith enter a (pruneWith enter f r).2).1 = a then
        pure (.app n f a)
      else Run.newApp (pruneWith enter f r).1 (pruneWith enter a (pruneWith enter f r).2).1 :
        StateM Run Ty) (pruneWith enter a (pruneWith enter f r).2).2 := rfl

theorem pruneWith_all (n : Nat) (x : String) (body : Ty) (r : Run) :
    pruneWith enter (.all n x body) r =
      (if (pruneWith enter body r).1 = body then pure (.all n x body)
      else Run.newAll x (pruneWith enter body r).1 : StateM Run Ty) (pruneWith enter body r).2 := rfl

/-- A node is kept or made anew; either way it has the pruned parts. -/
theorem plain_arrow_ite (n : Nat) (p q p' q' : Ty) (r : Run) :
    ((if p' = p ∧ q' = q then pure (.arrow n p q) else Run.newArrow p' q' : StateM Run Ty) r).1.plain =
      .arrow 0 p'.plain q'.plain ∧
    ∃ k, ((if p' = p ∧ q' = q then pure (.arrow n p q) else Run.newArrow p' q' : StateM Run Ty) r).2 =
      { r with stamps := k } := by
  split
  · rename_i h
    obtain ⟨rfl, rfl⟩ := h
    exact ⟨rfl, r.stamps, rfl⟩
  · exact ⟨rfl, _, rfl⟩

theorem plain_app_ite (n : Nat) (f a f' a' : Ty) (r : Run) :
    ((if f' = f ∧ a' = a then pure (.app n f a) else Run.newApp f' a' : StateM Run Ty) r).1.plain =
      .app 0 f'.plain a'.plain ∧
    ∃ k, ((if f' = f ∧ a' = a then pure (.app n f a) else Run.newApp f' a' : StateM Run Ty) r).2 =
      { r with stamps := k } := by
  split
  · rename_i h
    obtain ⟨rfl, rfl⟩ := h
    exact ⟨rfl, r.stamps, rfl⟩
  · exact ⟨rfl, _, rfl⟩

theorem plain_all_ite (n : Nat) (x : String) (body body' : Ty) (r : Run) :
    ((if body' = body then pure (.all n x body) else Run.newAll x body' : StateM Run Ty) r).1.plain =
      .all 0 x body'.plain ∧
    ∃ k, ((if body' = body then pure (.all n x body) else Run.newAll x body' : StateM Run Ty) r).2 =
      { r with stamps := k } := by
  split
  · rename_i h
    subst h
    exact ⟨rfl, r.stamps, rfl⟩
  · exact ⟨rfl, _, rfl⟩

theorem pruneWith_spec {n : Nat}
    (he : ∀ u (r : Run), r.table.Acyclic → r.table.Within n u → Pruned r u (enter u r))
    (ha : r.table.Acyclic) (ht : r.table.Within (n + 1) t) : Pruned r t (pruneWith enter t r) := by
  induction t generalizing r with
  | var | skolem | unknown | absent => exact ⟨rfl, .refl _, rfl⟩
  | all k x body ih =>
    obtain ⟨hb, hs, hf⟩ := ih ha ht
    rw [pruneWith_all]
    obtain ⟨hplain, j, hj⟩ :=
      plain_all_ite k x body (pruneWith enter body r).1 (pruneWith enter body r).2
    refine ⟨by rw [hplain, hb, Table.expand_all], ?_, ?_⟩
    · rw [hj]; exact hs
    · rw [hj, hf]
  | arrow k p q ihp ihq =>
    obtain ⟨hp, hsp, hfp⟩ := ihp ha fun m hm => ht m (by simp [hm])
    obtain ⟨hq, hsq, hfq⟩ := ihq (hsp.acyclic ha) (hsp.within fun m hm => ht m (by simp [hm]))
    rw [pruneWith_arrow]
    obtain ⟨hplain, j, hj⟩ := plain_arrow_ite k p q (pruneWith enter p r).1
      (pruneWith enter q (pruneWith enter p r).2).1 (pruneWith enter q (pruneWith enter p r).2).2
    refine ⟨by rw [hplain, hp, hq, hsp.expand, Table.expand_arrow], ?_, ?_⟩
    · rw [hj]; exact hsp.trans hsq
    · rw [hj, hfq, hfp]
  | app k f a ihf iha =>
    obtain ⟨hf, hsf, hff⟩ := ihf ha fun m hm => ht m (by simp [hm])
    obtain ⟨hg, hsg, hfg⟩ := iha (hsf.acyclic ha) (hsf.within fun m hm => ht m (by simp [hm]))
    rw [pruneWith_app]
    obtain ⟨hplain, j, hj⟩ := plain_app_ite k f a (pruneWith enter f r).1
      (pruneWith enter a (pruneWith enter f r).2).1 (pruneWith enter a (pruneWith enter f r).2).2
    refine ⟨by rw [hplain, hf, hg, hsf.expand, Table.expand_app], ?_, ?_⟩
    · rw [hj]; exact hsf.trans hsg
    · rw [hj, hfg, hff]
  | mvar m =>
    cases hs : r.table.solution? m with
    | none =>
      rw [pruneWith_mvar_none hs]
      exact ⟨(Table.expand_unsolved hs).symm, .refl _, rfl⟩
    | some u =>
      obtain ⟨hu, hsh, hf⟩ := he u r ha (ha.within_solution (ht m (by simp)) hs)
      obtain ⟨v, hv⟩ := hsh.solved hs
      have hexp : (enter u r).1.plain = r.table.expand (.mvar m) := by rw [hu, ha.expand_solved hs]
      rw [pruneWith_mvar_some hs]
      refine ⟨hexp, hsh.trans (.write (hsh.acyclic ha) hv ?_), ?_⟩
      · rw [hexp, hsh.expand]
      · rw [hf]

/-- A node is kept, or one stamp is used up for a new one. -/
theorem stamps_le_ite {c : Prop} [Decidable c] {x y : StateM Run Ty}
    (hx : r.stamps ≤ (x r).2.stamps) (hy : r.stamps ≤ (y r).2.stamps) :
    r.stamps ≤ ((if c then x else y) r).2.stamps := by
  split
  · exact hx
  · exact hy

theorem stamps_le_pruneWith (he : ∀ u (r : Run), r.stamps ≤ (enter u r).2.stamps) (t : Ty)
    (r : Run) : r.stamps ≤ (pruneWith enter t r).2.stamps := by
  induction t generalizing r with
  | var | skolem | unknown | absent => exact le_rfl
  | all n x body ih =>
    rw [pruneWith_all]
    exact (ih r).trans (stamps_le_ite le_rfl (Nat.le_succ _))
  | arrow n p q ihp ihq =>
    rw [pruneWith_arrow]
    exact ((ihp r).trans (ihq _)).trans (stamps_le_ite le_rfl (Nat.le_succ _))
  | app n f a ihf iha =>
    rw [pruneWith_app]
    exact ((ihf r).trans (iha _)).trans (stamps_le_ite le_rfl (Nat.le_succ _))
  | mvar m =>
    cases hs : r.table.solution? m with
    | none => rw [pruneWith_mvar_none hs]
    | some u => rw [pruneWith_mvar_some hs]; exact he u r

theorem pruneWith_unsolved (h : ∀ m ∈ t.mvars, r.table.solution? m = none) :
    pruneWith enter t r = (t, r) := by
  induction t with
  | all n y body ih =>
    rw [pruneWith_all, ih h, if_pos rfl]
    rfl
  | arrow n p q ihp ihq =>
    simp only [Ty.mvars, List.forall_mem_append] at h
    rw [pruneWith_arrow, ihp h.1, ihq h.2, if_pos ⟨rfl, rfl⟩]
    rfl
  | app n f a ihf iha =>
    simp only [Ty.mvars, List.forall_mem_append] at h
    rw [pruneWith_app, ihf h.1, iha h.2, if_pos ⟨rfl, rfl⟩]
    rfl
  | mvar m => exact pruneWith_mvar_none (h m (by simp))
  | var | skolem | unknown | absent => rfl

end

theorem stamps_le_prune (t : Ty) (r : Run) : r.stamps ≤ (prune t r).2.stamps := by
  have main : ∀ n (t : Ty) (r : Run), r.stamps ≤ (pruneWithin n t r).2.stamps := by
    intro n
    induction n with
    | zero => exact fun _ _ => le_rfl
    | succ n ih => exact stamps_le_pruneWith ih
  exact main _ t r

theorem pruneWithin_spec {r : Run} (n : Nat) {t : Ty} (ha : r.table.Acyclic)
    (ht : r.table.Within n t) : Pruned r t (pruneWithin n t r) := by
  induction n generalizing t r with
  | zero => exact ⟨(Table.expand_of_unsolved fun m hm => ht.unsolved hm).symm, .refl _, rfl⟩
  | succ n ih => exact pruneWith_spec (fun u r ha hu => ih ha hu) ha ht

/-- **Pruning returns the expansion and shortens the table.** -/
theorem prune_spec {r : Run} (ha : r.table.Acyclic) (t : Ty) : Pruned r t (prune t r) := by
  refine pruneWithin_spec _ ha fun m hm => ?_
  have := r.table.nesting_le_size m
  unfold Table.hops
  omega

/-- Without solved metavariables, pruning changes nothing. -/
theorem prune_unsolved {r : Run} {t : Ty} (h : ∀ m ∈ t.mvars, r.table.solution? m = none) :
    prune t r = (t, r) := @pruneWith_unsolved (pruneWithin r.table.size) t r h

theorem plain_prune {r : Run} (ha : r.table.Acyclic) (t : Ty) :
    (prune t r).1.plain = r.table.expand t := (prune_spec ha t).plain

/-- Pruning changes no expansion. -/
theorem expand_prune {r : Run} (ha : r.table.Acyclic) (t u : Ty) :
    (prune t r).2.table.expand u = r.table.expand u := (prune_spec ha t).shortens.expand u

/-- A pruned type is made of what its expansion is made of. -/
theorem leaves_prune {r : Run} (ha : r.table.Acyclic) {t : Ty} {P : MVar → Prop} {Q : Int → Prop} :
    (prune t r).1.Leaves P Q ↔ (r.table.expand t).Leaves P Q := by
  rw [← (prune_spec ha t).plain, Ty.leaves_plain]

/-- No metavariable of a pruned type is solved. -/
theorem unsolved_of_mem_prune {r : Run} (ha : r.table.Acyclic) {t : Ty} {m : MVar}
    (h : m ∈ (prune t r).1.mvars) : r.table.solution? m = none := by
  rw [← Ty.mvars_plain, plain_prune ha] at h
  exact ha.unsolved_of_mem_expand h

/-- A pruned type has the expansion of the type it was. -/
theorem expand_pruned {r : Run} (ha : r.table.Acyclic) (t : Ty) :
    r.table.expand (prune t r).1 = r.table.expand t :=
  (Table.expand_of_unsolved fun _ hm => unsolved_of_mem_prune ha hm).trans (plain_prune ha t)

end RankN
