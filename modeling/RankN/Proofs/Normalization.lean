import RankN.Proofs.Pruning
import RankN.Proofs.Substitution

/-!
# Pruning normalizes

A type is *normal* when none of its metavariables is solved, and a slot is *short* when the solution
in it is normal, if there is one. Pruning returns a normal type, the same node if the type was
normal already, and it makes short every slot that the type leads to.

**Slots in passing.** Pruning writes slots while it walks the table. A type further on may lead to
fewer slots than before, because one on its way was shortened; but then all that this one led to is
short already (`Table.Compresses`). So a slot that is no longer reached has been dealt with.

Main result: `prune_normalizes`.
-/

namespace RankN

open Relation

/-! ## Normal types and short slots -/

/-- No metavariable of the type is solved. -/
def Ty.Normal (tb : Table) (t : Ty) : Prop := ∀ m ∈ t.mvars, tb.solution? m = none

instance (tb : Table) (t : Ty) : Decidable (t.Normal tb) :=
  inferInstanceAs (Decidable (∀ m ∈ t.mvars, _))

namespace Table

variable {tb tb₁ tb₂ : Table} {m k : MVar} {t u : Ty}

/-- What stands in the slot of the metavariable, if anything, is normal. -/
def Short (tb : Table) (m : MVar) : Prop := ∀ u, tb.solution? m = some u → u.Normal tb

theorem Shortens.normal (h : tb.Shortens tb₁) : t.Normal tb₁ ↔ t.Normal tb :=
  forall₂_congr fun m _ => h.unsolved m

theorem Short.of_eq (h : tb.Short m) (hs : tb.Shortens tb₁)
    (heq : tb₁.solution? m = tb.solution? m) : tb₁.Short m := by
  intro u hu
  rw [heq] at hu
  exact hs.normal.2 (h u hu)

/-- From `tb` to `tb₁` the slots that `t` leads to became short, and where another slot was changed,
so did all that it leads to. -/
structure Compresses (tb : Table) (t : Ty) (tb₁ : Table) : Prop extends tb.Shortens tb₁ where
  slots : ∀ m, tb₁.solution? m = tb.solution? m ∨ ∀ k, ReflTransGen tb.Points m k → tb₁.Short k
  short : ∀ k, tb.Reaches t k → tb₁.Short k

namespace Compresses

theorem refl (tb : Table) (h : ∀ k, tb.Reaches t k → tb.Short k) : tb.Compresses t tb :=
  ⟨.refl tb, fun _ => .inl rfl, h⟩

theorem short_of_short (h : tb.Compresses t tb₁) (hm : tb.Short m) : tb₁.Short m := by
  rcases h.slots m with heq | hall
  · exact hm.of_eq h.toShortens heq
  · exact hall m .refl

/-- What a metavariable led to it still leads to, or it is short. -/
theorem path (h : tb.Compresses t tb₁) (hmk : ReflTransGen tb.Points m k) :
    ReflTransGen tb₁.Points m k ∨ tb₁.Short k := by
  induction hmk using ReflTransGen.head_induction_on with
  | refl => exact .inl .refl
  | @head a b hab hbk ih =>
    rcases h.slots a with heq | hall
    · obtain ⟨u, hu, hb⟩ := hab
      exact ih.imp_left (.head ⟨u, heq.trans hu, hb⟩)
    · exact .inr (hall k (.head hab hbk))

/-- Compressing for one type and then for another compresses for both. -/
theorem trans (h : tb.Compresses t tb₁) (h' : tb₁.Compresses u tb₂) {v : Ty}
    (hv : ∀ k, tb.Reaches v k → tb.Reaches t k ∨ tb.Reaches u k) : tb.Compresses v tb₂ := by
  refine ⟨h.toShortens.trans h'.toShortens, fun m => ?_, fun k hk => ?_⟩
  · rcases h.slots m with heq | hall
    · rcases h'.slots m with heq' | hall'
      · exact .inl (heq'.trans heq)
      · refine .inr fun k hmk => ?_
        rcases h.path hmk with hmk' | hk
        · exact hall' k hmk'
        · exact h'.short_of_short hk
    · exact .inr fun k hmk => h'.short_of_short (hall k hmk)
  · rcases hv k hk with ht | ⟨m, hm, hmk⟩
    · exact h'.short_of_short (h.short k ht)
    · rcases h.path hmk with hmk' | hk'
      · exact h'.short k ⟨m, hm, hmk'⟩
      · exact h'.short_of_short hk'

/-- Writing a pruned solution into its slot, once all that it led to is short. -/
theorem write (h : tb.Compresses t tb₁) (hm : tb.solution? m = some t)
    (hw : tb.Shortens (tb₁.write m u)) (hu : u.Normal tb) :
    tb.Compresses (.mvar m) (tb₁.write m u) := by
  have howns : tb₁.owns m := (h.owns m).2 (owns_of_solution? hm)
  have hself : (tb₁.write m u).Short m := by
    intro v hv
    rw [solution?_write_self howns] at hv
    cases hv
    exact hw.normal.2 hu
  have hother : ∀ k, tb₁.Short k → (tb₁.write m u).Short k := by
    intro k hk
    by_cases hkm : k = m
    · exact hkm ▸ hself
    · intro v hv
      rw [solution?_write_of_ne tb₁ hkm] at hv
      exact hw.normal.2 (h.normal.1 (hk v hv))
  have hreach : ∀ k, tb.Reaches (.mvar m) k → (tb₁.write m u).Short k := by
    intro k hk
    rcases (reaches_solved hm).1 hk with rfl | hk
    · exact hself
    · exact hother k (h.short k hk)
  refine ⟨hw, fun k => ?_, hreach⟩
  by_cases hkm : k = m
  · subst hkm
    exact .inr fun j hj => hreach j ⟨k, by simp, hj⟩
  · rcases h.slots k with heq | hall
    · exact .inl ((solution?_write_of_ne tb₁ hkm u).trans heq)
    · exact .inr fun j hj => hother j (hall j hj)

end Compresses

end Table

/-! ## What pruning does to the slots -/

section

variable {enter : Ty → StateM Run Ty} {t : Ty} {r : Run}

/-- Making a node or keeping it leaves the table. -/
theorem table_ite {c : Prop} [Decidable c] {x y : StateM Run Ty} (hx : (x r).2.table = r.table)
    (hy : (y r).2.table = r.table) : ((if c then x else y) r).2.table = r.table := by
  split
  · exact hx
  · exact hy

theorem pruneWith_compresses {n : Nat}
    (he : ∀ u (r : Run), r.table.Acyclic → r.table.Within n u → Pruned r u (enter u r) ∧
      r.table.Compresses u (enter u r).2.table)
    (ha : r.table.Acyclic) (ht : r.table.Within (n + 1) t) :
    r.table.Compresses t (pruneWith enter t r).2.table := by
  have hspec : ∀ {u : Ty} {r : Run}, r.table.Acyclic → r.table.Within (n + 1) u →
      Pruned r u (pruneWith enter u r) := pruneWith_spec fun u r ha hu => (he u r ha hu).1
  induction t generalizing r with
  | var | skolem | unknown | absent => exact .refl _ (by simp [Table.Reaches])
  | all k x body ih =>
    have hbody := ih ha ht
    rw [pruneWith_all, table_ite rfl rfl]
    exact ⟨hbody.toShortens, hbody.slots, hbody.short⟩
  | arrow k p q ihp ihq =>
    have hp := ihp ha fun m hm => ht m (by simp [hm])
    rw [pruneWith_arrow, table_ite rfl rfl]
    refine hp.trans (ihq (hp.acyclic ha) (hp.within fun m hm => ht m (by simp [hm]))) fun k hk => ?_
    exact Table.reaches_arrow.1 hk
  | app k f a ihf iha =>
    have hf := ihf ha fun m hm => ht m (by simp [hm])
    rw [pruneWith_app, table_ite rfl rfl]
    refine hf.trans (iha (hf.acyclic ha) (hf.within fun m hm => ht m (by simp [hm]))) fun k hk => ?_
    exact Table.reaches_app.1 hk
  | mvar m =>
    cases hs : r.table.solution? m with
    | none =>
      rw [pruneWith_mvar_none hs]
      refine .refl _ fun k hk u hu => ?_
      rw [(Table.reaches_unsolved hs).1 hk, hs] at hu
      cases hu
    | some u =>
      have hwhole := (hspec ha ht).shortens
      obtain ⟨hpruned, hcomp⟩ := he u r ha (ha.within_solution (ht m (by simp)) hs)
      rw [pruneWith_mvar_some hs] at hwhole ⊢
      refine hcomp.write hs hwhole fun k hk => ?_
      rw [← Ty.mvars_plain, hpruned.plain] at hk
      exact ha.unsolved_of_mem_expand hk

theorem pruneWithin_compresses (n : Nat) (ha : r.table.Acyclic) (ht : r.table.Within n t) :
    r.table.Compresses t (pruneWithin n t r).2.table := by
  induction n generalizing t r with
  | zero =>
    refine .refl _ fun k ⟨m, hm, hmk⟩ u hu => ?_
    have hnone := ht.unsolved hm
    rw [(Table.reaches_unsolved hnone).1 ⟨m, by simp, hmk⟩, hnone] at hu
    cases hu
  | succ n ih =>
    exact pruneWith_compresses (fun u r ha hu => ⟨pruneWithin_spec n ha hu, ih ha hu⟩) ha ht

/-- **Pruning makes short what a type leads to.** -/
theorem prune_compresses (ha : r.table.Acyclic) (t : Ty) :
    r.table.Compresses t (prune t r).2.table := by
  refine pruneWithin_compresses _ ha fun m _ => ?_
  have := r.table.nesting_le_size m
  unfold Table.hops
  omega

theorem normal_prune (ha : r.table.Acyclic) (t : Ty) : (prune t r).1.Normal r.table :=
  fun _ hm => unsolved_of_mem_prune ha hm

end

/-- **Pruning normalizes.** In every run with an acyclic table, for every type, whatever is in it:
the pruned type is normal, and pruning it again returns the same node and changes nothing. It is the
node that was given exactly if that was normal. The slot of every metavariable that the type led to
is short. The same metavariables are solved as before, and every type has a pruned form that is
built as before. -/
theorem prune_normalizes {r : Run} (ha : r.table.Acyclic) (t : Ty) :
    (prune t r).1.Normal (prune t r).2.table ∧
    prune (prune t r).1 (prune t r).2 = prune t r ∧
    ((prune t r).1 = t ↔ t.Normal r.table) ∧
    (∀ m, r.table.Reaches t m → (prune t r).2.table.Short m) ∧
    (∀ m, (prune t r).2.table.solved m = r.table.solved m) ∧
    ∀ u, (prune u (prune t r).2).1.plain = (prune u r).1.plain := by
  have hcomp := prune_compresses ha t
  have hnormal : (prune t r).1.Normal (prune t r).2.table := hcomp.normal.2 (normal_prune ha t)
  refine ⟨hnormal, prune_unsolved hnormal, ⟨fun h => ?_, fun h => ?_⟩, hcomp.short, fun m => ?_,
    fun u => ?_⟩
  · exact h ▸ normal_prune ha t
  · rw [prune_unsolved h]
  · rw [Table.solved, Table.solved, Bool.eq_iff_iff, Option.isSome_iff_ne_none,
      Option.isSome_iff_ne_none]
    exact not_congr (hcomp.unsolved m)
  · rw [plain_prune (hcomp.acyclic ha), plain_prune ha, expand_prune ha]

/-- With `?0 := ?1 → ?1`, `?1 := ?2` and `?2` solved by an unknown type, take `?0` applied to a
function from a metavariable of another run, which has the number of `?0`, to an absent type.
Pruning it makes the slots of `?0` and `?1` short and leaves the parts that are normal. -/
theorem prune_normalizes_chain :
    let m : MVar := ⟨3, 0, .empty⟩
    let k : MVar := ⟨4, 1, .empty⟩
    let j : MVar := ⟨5, 2, .empty⟩
    let other : MVar := ⟨6, 0, .empty⟩
    let record : Ty := .unknown 7 "Record"
    let tb := ((({} : Table).push m).push k).push j
    let tb₁ := tb.write m (.arrow 8 (.mvar k) (.mvar k))
    let tb₂ := tb₁.write k (.mvar j)
    let r : Run := { table := tb₂.write j record, mvars := 3, stamps := 11 }
    let rest : Ty := .arrow 9 (.mvar other) .absent
    let t : Ty := .app 10 (.mvar m) rest
    (prune t r).1 = .app 12 (.arrow 11 record record) rest ∧
      (prune t r).1.Normal (prune t r).2.table ∧
      prune (prune t r).1 (prune t r).2 = prune t r ∧
      (prune t r).1 ≠ t ∧ (prune rest r).1 = rest ∧
      r.table.solution? k = some (.mvar j) ∧ (prune t r).2.table.Short k ∧
      (prune t r).2.table.solved other = r.table.solved other ∧
      (prune (.mvar j) (prune t r).2).1.plain = (prune (.mvar j) r).1.plain := by
  intro m k j other record tb tb₁ tb₂ r rest t
  have htb : tb.Acyclic :=
    Table.acyclic_empty.congr fun m => by simp only [tb, Table.solution?_push]
  have h₁ : tb₁.Acyclic := by
    refine htb.write (by decide) fun h => ?_
    rw [Table.reaches_arrow, or_self, Table.reaches_unsolved (by decide)] at h
    exact absurd h (by decide)
  have h₂ : tb₂.Acyclic := by
    refine h₁.write (by decide) fun h => ?_
    rw [Table.reaches_unsolved (by decide)] at h
    exact absurd h (by decide)
  have hrecord : ¬ tb₂.Reaches record j := by simp [Table.Reaches, record]
  have ha : r.table.Acyclic := Table.Acyclic.write h₂ (by decide) hrecord
  have hm : r.table.solution? m = some (.arrow 8 (.mvar k) (.mvar k)) := by decide
  have hk : r.table.Reaches t k := ⟨m, by simp [t], .single ⟨_, hm, by simp⟩⟩
  obtain ⟨hnormal, hagain, hsame, hshort, hsolved, hform⟩ := prune_normalizes ha t
  refine ⟨by decide, hnormal, hagain, mt hsame.1 (by decide), ?_, by decide,
    hshort k hk, hsolved other, hform (.mvar j)⟩
  exact (prune_normalizes ha rest).2.2.1.2 (by decide)

end RankN
