import RankN.Proofs.Attainable

/-!
# Unification is symmetric

Two calls of unification with the sides changed go in step. They meet the same nodes at the same
time, so they open the same quantifiers, and at the same constants. It does not matter whether such a
constant occurs in the types already.

**What corresponds.** In the two runs the same chains of solutions end, but not in the same ends: one
run may have solved `m` by `k` and the other one `k` by `m`, and copies have other stamps. A
permutation `π` of metavariables and a set `N` of pairs of nodes say which ends correspond
(`Corresponds`). Nodes that were there at the start correspond to themselves.

**Identity.** Unification treats one node that it meets twice as settled. So two nodes must be one
node in both runs or in neither, which is why `N` pairs them off one to one (`OneToOne`). It stays so
because each copy has stamps of its own.

**Lockstep.** `Lockstep` collects what is kept: parts of corresponding nodes correspond again, read
through the two tables, and so does every metavariable to itself. Two courses from corresponding ends
come to the same error or to none, and keep in step (`Course.lockstep`).

Main result: `Attainable.unify_comm`. The two types may change sides.
-/

namespace RankN

open RankN.Action

/-! ## What corresponds -/

/-- The stamp of a compound type. -/
def Ty.label : Ty → Nat
  | .all n _ _ | .arrow n _ _ | .app n _ _ => n
  | _ => 0

/-- The compound types have the same form, with parts that are related by `L`. -/
inductive Ty.Beside (L : Ty → Ty → Prop) : Ty → Ty → Prop
  | all {k k' : Nat} {x : String} {t t' : Ty} : L t t' → Beside L (.all k x t) (.all k' x t')
  | arrow {k k' : Nat} {p p' q q' : Ty} : L p p' → L q q' →
    Beside L (.arrow k p q) (.arrow k' p' q')
  | app {k k' : Nat} {p p' q q' : Ty} : L p p' → L q q' → Beside L (.app k p q) (.app k' p' q')

/-- The ends correspond: metavariables by `π`, compound types as a pair in `N`. -/
inductive Corresponds (N : Set (Ty × Ty)) (π : Equiv.Perm MVar) : Ty → Ty → Prop
  | mvar (m : MVar) : Corresponds N π (.mvar m) (.mvar (π m))
  | leaf {t : Ty} : t.IsLeaf → (∀ m, t ≠ .mvar m) → Corresponds N π t t
  | node {t t' : Ty} : (t, t') ∈ N → Corresponds N π t t'

/-- The chains from the two types end in types that correspond. -/
def Linked (N : Set (Ty × Ty)) (π : Equiv.Perm MVar) (tb tb' : Table) (t t' : Ty) : Prop :=
  Corresponds N π (tb.resolve t) (tb'.resolve t')

/-- The pairs have both sides in common, or neither. -/
def OneToOne (N : Set (Ty × Ty)) : Prop := ∀ p ∈ N, ∀ q ∈ N, p.1 = q.1 ↔ p.2 = q.2

/-- The two stages are in step. Metavariables in `U` are those that may be exchanged. -/
structure Lockstep (U : MVar → Prop) (N : Set (Ty × Ty)) (π : Equiv.Perm MVar) (s s' : Stage) :
    Prop where
  acyclic : s.table.Acyclic
  acyclic_right : s'.table.Acyclic
  /-- The next constant is the same. -/
  skolems : s'.skolems = s.skolems
  exchanges : Exchanges U π
  unsolved : ∀ m, s.table.owns m → s.table.solution? m = none → U m
  oneToOne : OneToOne N
  /-- No node in the pairs is still to be made. -/
  made : ∀ p ∈ N, p.1.label < s.stamps ∧ p.2.label < s'.stamps
  parts : ∀ p ∈ N, p.1.Beside (Linked N π s.table s'.table) p.2
  mvars : ∀ m, Linked N π s.table s'.table (.mvar m) (.mvar m)

section

variable {U : MVar → Prop} {N N' : Set (Ty × Ty)} {π π' : Equiv.Perm MVar} {tb tb' : Table}
  {s s' s₁ s₁' : Stage} {a a' b b' t t' u u' : Ty} {m k : MVar} {L L' : Ty → Ty → Prop}

theorem Ty.Beside.mono (h : t.Beside L t') (hL : ∀ u u', L u u' → L' u u') : t.Beside L' t' := by
  cases h with
  | all h => exact .all (hL _ _ h)
  | arrow hp hq => exact .arrow (hL _ _ hp) (hL _ _ hq)
  | app hp hq => exact .app (hL _ _ hp) (hL _ _ hq)

theorem Ty.Beside.not_isLeaf (h : t.Beside L t') : ¬ t.IsLeaf ∧ ¬ t'.IsLeaf := by
  cases h <;> exact ⟨id, id⟩

theorem Corresponds.mono (h : Corresponds N π t t') (hN : N ⊆ N') : Corresponds N' π t t' := by
  cases h with
  | mvar m => exact .mvar m
  | leaf ht hne => exact .leaf ht hne
  | node h => exact .node (hN h)

theorem Linked.mono (h : Linked N π tb tb' t t') (hN : N ⊆ N') : Linked N' π tb tb' t t' :=
  Corresponds.mono h hN

theorem linked_of_ends (h : Corresponds N π t t') (ht : tb.Ends t) (ht' : tb'.Ends t') :
    Linked N π tb tb' t t' := by
  unfold Linked
  rwa [ht.resolve, ht'.resolve]

theorem OneToOne.union (h : OneToOne N) (h' : OneToOne N')
    (hne : ∀ p ∈ N, ∀ q ∈ N', p.1 ≠ q.1 ∧ p.2 ≠ q.2) : OneToOne (N ∪ N') := by
  rintro p (hp | hp) q (hq | hq)
  · exact h p hp q hq
  · exact iff_of_false (hne p hp q hq).1 (hne p hp q hq).2
  · exact iff_of_false (hne q hq p hp).1.symm (hne q hq p hp).2.symm
  · exact h' p hp q hq

theorem Corresponds.mem (h : Corresponds N π t t') (hnode : ¬ t.IsLeaf) : (t, t') ∈ N := by
  cases h with
  | mvar m => exact absurd trivial hnode
  | leaf hleaf => exact absurd hleaf hnode
  | node hN => exact hN

namespace Lockstep

theorem eq_of_leaf (h : Lockstep U N π s s') (ha : Corresponds N π a a') (hleaf : a.IsLeaf)
    (hne : ∀ m, a ≠ .mvar m) : a' = a := by
  cases ha with
  | mvar m => exact absurd rfl (hne m)
  | leaf => rfl
  | node hN => exact absurd hleaf (h.parts _ hN).not_isLeaf.1

theorem eq_mvar (h : Lockstep U N π s s') (ha : Corresponds N π (.mvar m) a') :
    a' = .mvar (π m) := by
  cases ha with
  | mvar => rfl
  | leaf _ hne => exact absurd rfl (hne m)
  | node hN => exact absurd trivial (h.parts _ hN).not_isLeaf.1

/-- **Ends are the same in both runs or in neither.** -/
theorem eq_iff (h : Lockstep U N π s s') (ha : Corresponds N π a a') (hb : Corresponds N π b b') :
    a = b ↔ a' = b' := by
  have leaf_node : ∀ {u u' : Ty} (t t' : Ty), (u, u') ∈ N → t.IsLeaf → t'.IsLeaf →
      (t = u ↔ t' = u') := by
    intro u u' t t' hN ht ht'
    obtain ⟨hu, hu'⟩ := (h.parts _ hN).not_isLeaf
    exact iff_of_false (fun heq => hu (heq ▸ ht)) fun heq => hu' (heq ▸ ht')
  cases ha with
  | mvar m =>
    cases hb with
    | mvar k => simp
    | leaf _ hne => exact iff_of_false (hne m).symm (hne _).symm
    | node hN => exact leaf_node _ _ hN trivial trivial
  | leaf hleaf hne =>
    cases hb with
    | mvar k => exact iff_of_false (hne k) (hne _)
    | leaf => rfl
    | node hN => exact leaf_node _ _ hN hleaf hleaf
  | node hN =>
    cases hb with
    | mvar k =>
      have hiff := leaf_node (.mvar k) (.mvar (π k)) hN trivial trivial
      exact eq_comm.trans (hiff.trans eq_comm)
    | leaf hleaf => exact eq_comm.trans ((leaf_node _ _ hN hleaf hleaf).trans eq_comm)
    | node hN' => exact h.oneToOne _ hN _ hN'

/-- **Types that are linked have the same expansion**, but for metavariables. -/
theorem expand_linked (h : Lockstep U N π s s') (ht : Linked N π s.table s'.table t t') :
    s'.table.expand t' = (s.table.expand t).relabel π id := by
  have leaf : ∀ {t t' : Ty}, Corresponds N π t (s'.table.resolve t') → t.IsLeaf →
      (∀ m, t ≠ .mvar m) → s'.table.expand t' = s'.table.expand t := by
    intro t t' ht hleaf hne
    rw [← h.acyclic_right.expand_resolve t', h.eq_of_leaf ht hleaf hne]
  have node : ∀ {t t' : Ty}, ¬ t.IsLeaf → Corresponds N π t (s'.table.resolve t') →
      ∃ w, t.Beside (Linked N π s.table s'.table) w ∧ s'.table.expand t' = s'.table.expand w :=
    fun {t t'} hnode ht => ⟨_, h.parts _ (ht.mem hnode), (h.acyclic_right.expand_resolve t').symm⟩
  induction t using h.acyclic.induction generalizing t' with
  | solved m u hm ih =>
    rw [Linked, h.acyclic.resolve_solved hm] at ht
    rw [ih ht, h.acyclic.expand_solved hm]
  | unsolved m hm =>
    rw [Linked, (Table.ends_mvar hm).resolve] at ht
    have hend := h.eq_mvar ht
    rw [← h.acyclic_right.expand_resolve t', hend, Table.expand_unsolved hm]
    exact Table.expand_unsolved (h.acyclic_right.ends_resolve t' _ hend)
  | all n x body ih =>
    obtain ⟨w, hw, hexpand⟩ := node id ht
    cases hw with
    | all hbody => simp [hexpand, ih hbody]
  | arrow n p q ihp ihq =>
    obtain ⟨w, hw, hexpand⟩ := node id ht
    cases hw with
    | arrow hp hq => simp [hexpand, ihp hp, ihq hq]
  | app n p q ihp ihq =>
    obtain ⟨w, hw, hexpand⟩ := node id ht
    cases hw with
    | app hp hq => simp [hexpand, ihp hp, ihq hq]
  | var | skolem | unknown | absent =>
    rw [leaf ht trivial (by simp)]
    rfl

theorem expand (h : Lockstep U N π s s') (t : Ty) :
    s'.table.expand t = (s.table.expand t).relabel π id := by
  induction t with
  | all n x body ih => simp [ih]
  | arrow n p q ihp ihq => simp [ihp, ihq]
  | app n p q ihp ihq => simp [ihp, ihq]
  | mvar m => exact h.expand_linked (h.mvars m)
  | _ => rfl

/-- The obstacles to a solution are the same. -/
theorem obstacle_eq (h : Lockstep U N π s s') (hm : s.table.solution? m = none)
    (hm' : s'.table.solution? (π m) = none) (ht : Linked N π s.table s'.table t t') :
    obstacle? s'.table (π m) t' = obstacle? s.table m t := by
  have hf : Faithful π 1 (fun _ => True) fun _ => True :=
    ⟨fun _ _ => trivial, fun _ _ _ _ heq => π.injective heq,
      fun m _ c => by rw [h.exchanges.scope]; rfl⟩
  rw [RankN.obstacle?_eq h.acyclic hm, RankN.obstacle?_eq h.acyclic_right hm', h.expand_linked ht]
  exact obstacle?_relabel hf trivial fun _ _ => trivial

/-! ## Solving in step -/

/-- What is kept when solutions are written on both sides. -/
theorem write (h : Lockstep U N π s s') (ha : tb.Acyclic) (ha' : tb'.Acyclic)
    (hπ : Exchanges U π') (hU : ∀ m, tb.owns m → tb.solution? m = none → U m)
    (hlink : ∀ t t', Linked N π s.table s'.table t t' → Linked N π' tb tb' t t') :
    Lockstep U N π' { s with table := tb } { s' with table := tb' } where
  acyclic := ha
  acyclic_right := ha'
  skolems := h.skolems
  exchanges := hπ
  unsolved := hU
  oneToOne := h.oneToOne
  made := h.made
  parts p hp := (h.parts p hp).mono hlink
  mvars m := hlink _ _ (h.mvars m)

theorem unsolved_write (h : Lockstep U N π s s') (hm : s.Meets m t) (k : MVar)
    (hk : (s.table.write m t).owns k) (hnone : (s.table.write m t).solution? k = none) : U k := by
  rw [Table.owns_write] at hk
  rcases eq_or_ne k m with rfl | hkm
  · exact h.unsolved k hm.owns hm.unsolved
  · rw [Table.solution?_write_of_ne _ hkm] at hnone
    exact h.unsolved k hk hnone

theorem settled (h : Lockstep U N π s s') (hm : s.Meets m t) (hm' : s'.Meets (π m) t')
    (ht : Corresponds N π t t') (ha : (s.table.write m t).Acyclic)
    (ha' : (s'.table.write (π m) t').Acyclic) :
    ∀ u u', Linked N π s.table s'.table u u' →
      Linked N π (s.table.write m t) (s'.table.write (π m) t') u u' := by
  intro u u' hu
  have hiff := h.eq_iff hu (.mvar m)
  unfold Linked
  rw [h.acyclic.resolve_write hm.owns hm.unsolved hm.ends hm.ne ha,
    h.acyclic_right.resolve_write hm'.owns hm'.unsolved hm'.ends hm'.ne ha']
  by_cases hu' : s.table.resolve u = .mvar m
  · rwa [if_pos hu', if_pos (hiff.1 hu')]
  · rwa [if_neg hu', if_neg fun heq => hu' (hiff.2 heq)]

/-- Where one run solves `m` by `k`, the other one may solve `k` by `m`. -/
theorem settled_across (h : Lockstep U N π s s') (hm : s.Meets m (.mvar k))
    (hk : s'.Meets (π k) (.mvar (π m))) (ha : (s.table.write m (.mvar k)).Acyclic)
    (ha' : (s'.table.write (π k) (.mvar (π m))).Acyclic) :
    ∀ u u', Linked N π s.table s'.table u u' →
      Linked N (π * Equiv.swap m k) (s.table.write m (.mvar k))
        (s'.table.write (π k) (.mvar (π m))) u u' := by
  have hmk : k ≠ m := fun heq => hm.ne (congrArg Ty.mvar heq)
  have hturn : (π * Equiv.swap m k) k = π m := by simp
  intro u u' hu
  unfold Linked at hu ⊢
  rw [h.acyclic.resolve_write hm.owns hm.unsolved hm.ends hm.ne ha,
    h.acyclic_right.resolve_write hk.owns hk.unsolved hk.ends hk.ne ha']
  generalize s.table.resolve u = w, s'.table.resolve u' = w' at hu
  cases hu with
  | mvar j =>
    rcases eq_or_ne j m with rfl | hjm
    · have : Ty.mvar (π j) ≠ .mvar (π k) := by simpa using hmk.symm
      rw [if_pos rfl, if_neg this, ← hturn]
      exact .mvar k
    · rcases eq_or_ne j k with rfl | hjk
      · rw [if_neg (by simpa using hjm), if_pos rfl, ← hturn]
        exact .mvar j
      · have hj : (π * Equiv.swap m k) j = π j := by
          simp [Equiv.swap_apply_of_ne_of_ne hjm hjk]
        rw [if_neg (by simpa using hjm), if_neg (by simpa using hjk), ← hj]
        exact .mvar j
  | leaf hleaf hne =>
    rw [if_neg (hne m), if_neg (hne _)]
    exact .leaf hleaf hne
  | node hN =>
    obtain ⟨hw, hw'⟩ := (h.parts _ hN).not_isLeaf
    rw [if_neg, if_neg]
    · exact .node hN
    · rintro rfl
      exact hw' trivial
    · rintro rfl
      exact hw trivial

end Lockstep

/-! ## Copies in step -/

/-- The pairs `N'` of nodes are new: they are made with the stamps from `i` up to `j` in one run and
from `i'` up to `j'` in the other, and their parts are linked by way of `N`. -/
structure NewPairs (N : Set (Ty × Ty)) (π : Equiv.Perm MVar) (tb tb' : Table) (N' : Set (Ty × Ty))
    (i j i' j' : Nat) : Prop where
  oneToOne : OneToOne N'
  left : ∀ p ∈ N', i ≤ p.1.label ∧ p.1.label < j
  right : ∀ p ∈ N', i' ≤ p.2.label ∧ p.2.label < j'
  parts : ∀ p ∈ N', p.1.Beside (Linked N π tb tb') p.2

variable {N₁ N₂ : Set (Ty × Ty)} {x : String} {i j l i' j' l' : Nat}

theorem newPairs_empty (N : Set (Ty × Ty)) (π : Equiv.Perm MVar) (tb tb' : Table) (i i' : Nat) :
    NewPairs N π tb tb' ∅ i i i' i' :=
  ⟨fun _ h => h.elim, fun _ h => h.elim, fun _ h => h.elim, fun _ h => h.elim⟩

theorem newPairs_node (ht : t.Beside (Linked N π tb tb') t') :
    NewPairs N π tb tb' {(t, t')} t.label (t.label + 1) t'.label (t'.label + 1) := by
  refine ⟨?_, ?_, ?_, ?_⟩
  · rintro p rfl q rfl
    exact iff_of_true rfl rfl
  · rintro p rfl
    exact ⟨le_rfl, Nat.lt_succ_self _⟩
  · rintro p rfl
    exact ⟨le_rfl, Nat.lt_succ_self _⟩
  · rintro p rfl
    exact ht

theorem NewPairs.mono (h : NewPairs N π tb tb' N₁ i j i' j') (hN : N ⊆ N') :
    NewPairs N' π tb tb' N₁ i j i' j' :=
  ⟨h.oneToOne, h.left, h.right, fun p hp => (h.parts p hp).mono fun _ _ ht => ht.mono hN⟩

/-- Nodes with stamps in different ranges are different. -/
theorem NewPairs.ne (h : NewPairs N π tb tb' N₁ i j i' j') {p q : Ty × Ty} (hp : p ∈ N₁)
    (hq : q.1.label < i ∨ j ≤ q.1.label) (hq' : q.2.label < i' ∨ j' ≤ q.2.label) :
    q.1 ≠ p.1 ∧ q.2 ≠ p.2 := by
  have hl := h.left p hp
  have hr := h.right p hp
  refine ⟨fun heq => ?_, fun heq => ?_⟩
  · rw [heq] at hq
    omega
  · rw [heq] at hq'
    omega

/-- Nodes that are made one after the other. -/
theorem NewPairs.union (h₁ : NewPairs N π tb tb' N₁ i j i' j') (h₂ : NewPairs N π tb tb' N₂ j l j' l')
    (hij : i ≤ j) (hjl : j ≤ l) (hij' : i' ≤ j') (hjl' : j' ≤ l') :
    NewPairs N π tb tb' (N₁ ∪ N₂) i l i' l' where
  oneToOne := by
    refine h₁.oneToOne.union h₂.oneToOne fun p hp q hq => ?_
    exact h₂.ne hq (.inl (h₁.left p hp).2) (.inl (h₁.right p hp).2)
  left := by
    rintro p (hp | hp)
    · have := h₁.left p hp
      omega
    · have := h₂.left p hp
      omega
  right := by
    rintro p (hp | hp)
    · have := h₁.right p hp
      omega
    · have := h₂.right p hp
      omega
  parts := by
    rintro p (hp | hp)
    · exact h₁.parts p hp
    · exact h₂.parts p hp

/-- With the pairs of nodes that are made, in addition to `N`, `Q` holds. -/
def Making (N : Set (Ty × Ty)) (π : Equiv.Perm MVar) (tb tb' : Table) (i j i' j' : Nat)
    (Q : Set (Ty × Ty) → Prop) : Prop :=
  ∃ N', NewPairs (N ∪ N') π tb tb' N' i j i' j' ∧ Q (N ∪ N')

theorem making_nothing {Q : Set (Ty × Ty) → Prop} (hQ : Q N) (i i' : Nat) :
    Making N π tb tb' i i i' i' Q :=
  ⟨∅, newPairs_empty .., by rwa [Set.union_empty]⟩

/-- Two types, one after the other. -/
theorem Making.both {p p' q q' : Ty} (h₁ : Making N π tb tb' i j i' j' (Corresponds · π p p'))
    (h₂ : Making N π tb tb' j l j' l' (Corresponds · π q q')) (hij : i ≤ j) (hjl : j ≤ l)
    (hij' : i' ≤ j') (hjl' : j' ≤ l') :
    Making N π tb tb' i l i' l' fun M => Corresponds M π p p' ∧ Corresponds M π q q' := by
  obtain ⟨N₁, hnew₁, hp⟩ := h₁
  obtain ⟨N₂, hnew₂, hq⟩ := h₂
  have hsub₁ : N ∪ N₁ ⊆ N ∪ (N₁ ∪ N₂) := Set.union_subset_union_right N Set.subset_union_left
  have hsub₂ : N ∪ N₂ ⊆ N ∪ (N₁ ∪ N₂) := Set.union_subset_union_right N Set.subset_union_right
  exact ⟨N₁ ∪ N₂, (hnew₁.mono hsub₁).union (hnew₂.mono hsub₂) hij hjl hij' hjl',
    hp.mono hsub₁, hq.mono hsub₂⟩

/-- One more pair of nodes, on top. -/
theorem Making.node {Q : Set (Ty × Ty) → Prop} (h : Making N π tb tb' i j i' j' Q) (hij : i ≤ j)
    (hij' : i' ≤ j') (ht : t.label = j) (ht' : t'.label = j')
    (hparts : ∀ M, Q M → t.Beside (Linked M π tb tb') t') :
    Making N π tb tb' i (j + 1) i' (j' + 1) (Corresponds · π t t') := by
  obtain ⟨N₁, hnew, hq⟩ := h
  subst ht ht'
  have hsub : N ∪ N₁ ⊆ N ∪ (N₁ ∪ {(t, t')}) := Set.union_subset_union_right N Set.subset_union_left
  have hpair := (hparts _ hq).mono fun _ _ h => h.mono hsub
  refine ⟨N₁ ∪ {(t, t')}, ?_, .node (.inr (.inr rfl))⟩
  exact (hnew.mono hsub).union (newPairs_node hpair) hij (Nat.le_succ _) hij' (Nat.le_succ _)

/-- Copies are ends of chains: where they correspond they are linked. -/
theorem Copy.linked {c : Int} (hcopy : Copy tb x (.skolem c) t i u j)
    (hcopy' : Copy tb' x (.skolem c) t' i' u' j') (hu : Corresponds N π u u') :
    Linked N π tb tb' u u' := by
  have hends : ∀ tb : Table, tb.Ends (.skolem c) := fun tb => Table.ends_of_ne (by simp)
  exact linked_of_ends hu (hcopy.ends (hends tb)) (hcopy'.ends (hends tb'))

/-- **Copies of ends that correspond** correspond, part by part. -/
theorem Lockstep.copies {c : Int} (h : Lockstep U N π s s')
    (hcopy : Copy s.table x (.skolem c) t i u j) (hcopy' : Copy s'.table x (.skolem c) t' i' u' j')
    (ht : Corresponds N π t t') :
    Making N π s.table s'.table i j i' j' (Corresponds · π u u') := by
  induction hcopy generalizing t' i' u' j' with
  | here i =>
    cases h.eq_of_leaf ht trivial (by simp)
    cases hcopy' with
    | here => exact making_nothing (.leaf (t := .skolem c) trivial (by simp)) _ _
    | leaf _ _ hne => exact absurd rfl hne
  | @leaf t i hleaf hne _ =>
    have hu' : u' = t' ∧ i' = j' := by
      cases ht with
      | mvar m =>
        cases hcopy' with
        | leaf => exact ⟨rfl, rfl⟩
      | leaf =>
        cases hcopy' with
        | here => exact absurd rfl hne
        | leaf => exact ⟨rfl, rfl⟩
        | _ => exact hleaf.elim
      | node hN => exact absurd hleaf (h.parts _ hN).not_isLeaf.1
    obtain ⟨rfl, rfl⟩ := hu'
    exact making_nothing ht _ _
  | bound k body i =>
    have hparts := h.parts _ (ht.mem id)
    cases hparts with
    | all =>
      cases hcopy' with
      | leaf _ hleaf => exact hleaf.elim
      | bound => exact making_nothing ht _ _
      | all hne => exact absurd rfl hne
  | all hne hb ih =>
    have hparts := h.parts _ (ht.mem id)
    cases hparts with
    | all hbody =>
      cases hcopy' with
      | leaf _ hleaf => exact hleaf.elim
      | bound => exact absurd rfl hne
      | all _ hb' =>
        refine (ih hb' hbody).node hb.le hb'.le rfl rfl fun M hM => ?_
        exact .all (hb.linked hb' hM)
  | arrow hp hq ihp ihq =>
    have hparts := h.parts _ (ht.mem id)
    cases hparts with
    | arrow hlp hlq =>
      cases hcopy' with
      | leaf _ hleaf => exact hleaf.elim
      | arrow hp' hq' =>
        have hboth := (ihp hp' hlp).both (ihq hq' hlq) hp.le hq.le hp'.le hq'.le
        refine hboth.node (hp.le.trans hq.le) (hp'.le.trans hq'.le) rfl rfl fun M hM => ?_
        exact .arrow (hp.linked hp' hM.1) (hq.linked hq' hM.2)
  | app hp hq ihp ihq =>
    have hparts := h.parts _ (ht.mem id)
    cases hparts with
    | app hlp hlq =>
      cases hcopy' with
      | leaf _ hleaf => exact hleaf.elim
      | app hp' hq' =>
        have hboth := (ihp hp' hlp).both (ihq hq' hlq) hp.le hq.le hp'.le hq'.le
        refine hboth.node (hp.le.trans hq.le) (hp'.le.trans hq'.le) rfl rfl fun M hM => ?_
        exact .app (hp.linked hp' hM.1) (hq.linked hq' hM.2)

/-- **Opening two quantifiers in step.** -/
theorem Lockstep.opens {y : String} {t₁ t₁' u₁ u₁' : Ty} (h : Lockstep U N π s s')
    (ho : s.Opens x t y u t₁ u₁ s₁) (ho' : s'.Opens x t' y u' t₁' u₁' s₁')
    (ht : Linked N π s.table s'.table t t') (hu : Linked N π s.table s'.table u u') :
    ∃ N', N ⊆ N' ∧ Lockstep U N' π s₁ s₁' ∧ Corresponds N' π t₁ t₁' ∧
      Corresponds N' π u₁ u₁' := by
  obtain ⟨htable, hskolems, hcopy, hcopy₂, hi, hj, hi₁, hj₁, hapart⟩ := ho
  obtain ⟨htable', hskolems', hcopy', hcopy₂', hi', hj', hi₁', hj₁', hapart'⟩ := ho'
  rw [h.skolems] at hcopy' hcopy₂' hskolems'
  obtain ⟨N₁, hnew₁, hN₁⟩ := h.copies hcopy hcopy' ht
  obtain ⟨N₂, hnew₂, hN₂⟩ := h.copies hcopy₂ hcopy₂' hu
  have hsub₁ : N ∪ N₁ ⊆ N ∪ N₁ ∪ N₂ := Set.subset_union_left
  have hsub₂ : N ∪ N₂ ⊆ N ∪ N₁ ∪ N₂ := Set.union_subset_union_left N₂ Set.subset_union_left
  have hsub : N ⊆ N ∪ N₁ ∪ N₂ := Set.subset_union_left.trans hsub₁
  refine ⟨N ∪ N₁ ∪ N₂, hsub, ?_, hN₁.mono hsub₁, hN₂.mono hsub₂⟩
  have hle := hcopy.le
  have hle' := hcopy'.le
  refine ⟨htable ▸ h.acyclic, htable' ▸ h.acyclic_right, hskolems'.trans hskolems.symm,
    h.exchanges, htable ▸ h.unsolved, ?_, ?_, ?_, ?_⟩
  · refine (h.oneToOne.union hnew₁.oneToOne fun p hp q hq => ?_).union hnew₂.oneToOne ?_
    · have := h.made p hp
      exact hnew₁.ne hq (.inl (by omega)) (.inl (by omega))
    · rintro p (hp | hp) q hq
      · have := h.made p hp
        exact hnew₂.ne hq (.inl (by omega)) (.inl (by omega))
      · have := hnew₁.left p hp
        have := hnew₁.right p hp
        exact hnew₂.ne hq (by omega) (by omega)
  · rintro p ((hp | hp) | hp)
    · have := h.made p hp
      omega
    · have := hnew₁.left p hp
      have := hnew₁.right p hp
      omega
    · have := hnew₂.left p hp
      have := hnew₂.right p hp
      omega
  · rw [htable, htable']
    rintro p ((hp | hp) | hp)
    · exact (h.parts p hp).mono fun _ _ ht => ht.mono hsub
    · exact (hnew₁.mono hsub₁).parts p hp
    · exact (hnew₂.mono hsub₂).parts p hp
  · rw [htable, htable']
    exact fun m => (h.mvars m).mono hsub

/-! ## Courses in step -/

/-- The tables expand types alike, up to an exchange of metavariables in `U`. -/
structure Stage.Alike (U : MVar → Prop) (s s' : Stage) : Prop where
  acyclic : s.table.Acyclic
  acyclic_right : s'.table.Acyclic
  expand : ∃ π, Exchanges U π ∧ ∀ t, s'.table.expand t = (s.table.expand t).relabel π id

/-- Two courses from stages in step end alike, and in step again if they come to no error. What was
linked before is linked still. -/
structure EndInStep (U : MVar → Prop) (N : Set (Ty × Ty)) (π : Equiv.Perm MVar) (s s' : Stage)
    (v v' : Option TypeError.Kind) (s₁ s₁' : Stage) : Prop where
  outcome : v' = v
  alike : s₁.Alike U s₁'
  lockstep : v = none → ∃ N' π', Lockstep U N' π' s₁ s₁' ∧
    ∀ t t', Linked N π s.table s'.table t t' → Linked N' π' s₁.table s₁'.table t t'

/-- What comes before a course may be put in front of it, if it keeps what is linked. -/
theorem EndInStep.of_linked {v v' : Option TypeError.Kind} {s₂ s₂' : Stage}
    (h : EndInStep U N' π' s₂ s₂' v v' s₁ s₁')
    (hlink : ∀ t t', Linked N π s.table s'.table t t' → Linked N' π' s₂.table s₂'.table t t') :
    EndInStep U N π s s' v v' s₁ s₁' := by
  refine ⟨h.outcome, h.alike, fun hv => ?_⟩
  obtain ⟨N'', π'', hstep, hlink'⟩ := h.lockstep hv
  exact ⟨N'', π'', hstep, fun t t' ht => hlink' t t' (hlink t t' ht)⟩

theorem Lockstep.alike (h : Lockstep U N π s s') : s.Alike U s' :=
  ⟨h.acyclic, h.acyclic_right, π, h.exchanges, h.expand⟩

theorem Stage.Alike.restates (h : s.Alike U s') (hs : s.table.Restates s₁.table)
    (hs' : s'.table.Restates s₁'.table) : s₁.Alike U s₁' := by
  obtain ⟨π, hπ, hexpand⟩ := h.expand
  refine ⟨hs.acyclic, hs'.acyclic, π, hπ, fun t => ?_⟩
  rw [hs'.expand, hexpand, hs.expand]

namespace Lockstep

variable {v v' : Option TypeError.Kind} {p q p' q' : Ty}

theorem endInStep (h : Lockstep U N π s s') : EndInStep U N π s s' none none s s' :=
  ⟨rfl, h.alike, fun _ => ⟨N, π, h, fun _ _ ht => ht⟩⟩

/-- **Solving in step**, where the obstacles are the same and what was linked stays so. -/
theorem settles (h : Lockstep U N π s s') {m' : MVar} (hm : s.Meets m t) (hm' : s'.Meets m' t')
    (hobs : obstacle? s'.table m' t' = obstacle? s.table m t) (habs : t = .absent ↔ t' = .absent)
    (hlink : obstacle? s.table m t = none → (s.table.write m t).Acyclic →
      (s'.table.write m' t').Acyclic → ∃ π', Exchanges U π' ∧
        ∀ u u', Linked N π s.table s'.table u u' →
          Linked N π' (s.table.write m t) (s'.table.write m' t') u u')
    (hs : s.Settles m t v s₁) (hs' : s'.Settles m' t' v' s₁') :
    EndInStep U N π s s' v v' s₁ s₁' := by
  have absent_free : ∀ (tb : Table) (m : MVar), obstacle? tb m .absent = none := fun _ _ => rfl
  cases hs with
  | blocked hwhy hresp =>
    cases hs' with
    | blocked hwhy' hresp' =>
      rw [hobs, hwhy] at hwhy'
      cases hwhy'
      exact ⟨rfl, h.alike.restates hresp hresp', fun hv => by cases hv⟩
    | absent ht' =>
      rw [habs.2 ht', absent_free] at hwhy
      cases hwhy
    | free hfree' =>
      rw [hobs, hwhy] at hfree'
      cases hfree'
  | absent ht =>
    cases hs' with
    | blocked hwhy' =>
      rw [habs.1 ht, absent_free] at hwhy'
      cases hwhy'
    | absent => exact ⟨rfl, h.alike, fun hv => by cases hv⟩
    | free _ hne' => exact absurd (habs.1 ht) hne'
  | free hfree hne =>
    cases hs' with
    | blocked hwhy' =>
      rw [hobs, hfree] at hwhy'
      cases hwhy'
    | absent ht' => exact absurd (habs.2 ht') hne
    | free hfree' =>
      have ha := h.acyclic.write_free hm.owns hm.unsolved hfree
      have ha' := h.acyclic_right.write_free hm'.owns hm'.unsolved hfree'
      obtain ⟨π', hπ', hlinked⟩ := hlink hfree ha ha'
      have hl := h.write ha ha' hπ' (h.unsolved_write hm) hlinked
      exact ⟨rfl, hl.alike, fun _ => ⟨N, π', hl, hlinked⟩⟩

/-- The only obstacle to solving one metavariable by another is that their scopes differ. -/
theorem obstacle?_mvar (hk : tb.solution? k = none) (hne : k ≠ m) :
    obstacle? tb m (.mvar k) = if m.scope = k.scope then none else some .scopeMismatch := by
  simp [obstacle?, Table.hops, obstacleWithin, obstacleWith, hk, hne]

/-- **A metavariable meets an end, in step.** -/
theorem solves (h : Lockstep U N π s s') (ht : Corresponds N π t t') (hown : t.Owned s.table)
    (hm : s.Meets m t) (hs : s.Settles m t v s₁) (h' : Course s' (.mvar (π m)) t' v' s₁') :
    EndInStep U N π s s' v v' s₁ s₁' := by
  have hne : t' ≠ .mvar (π m) := fun heq => hm.ne ((h.eq_iff ht (.mvar m)).2 heq)
  have habs := h.eq_iff ht (.leaf (t := .absent) trivial (by simp))
  rcases h'.of_mvar hne with ⟨hm', hs'⟩ | ⟨k', rfl, hm', hs'⟩
  · have hobs := h.obstacle_eq hm.unsolved hm'.unsolved (linked_of_ends ht hm.ends hm'.ends)
    refine h.settles hm hm' hobs habs (fun _ ha ha' => ?_) hs hs'
    exact ⟨π, h.exchanges, h.settled hm hm' ht ha ha'⟩
  · -- The other run solves the two metavariables the other way round.
    obtain ⟨k, rfl, rfl⟩ : ∃ k, t = .mvar k ∧ π k = k' := by
      cases ht with
      | mvar k => exact ⟨k, rfl, rfl⟩
      | leaf _ hne => exact absurd rfl (hne k')
      | node hN => exact absurd trivial (h.parts _ hN).not_isLeaf.2
    have hk : s.table.solution? k = none := hm.ends k rfl
    have hm₁ : s'.table.solution? (π m) = none := hm'.ends _ rfl
    have hkm : k ≠ m := fun heq => hm.ne (congrArg Ty.mvar heq)
    have hobs : obstacle? s'.table (π k) (.mvar (π m)) = obstacle? s.table m (.mvar k) := by
      rw [obstacle?_mvar hm₁ (by simpa using hkm.symm), obstacle?_mvar hk hkm, h.exchanges.scope,
        h.exchanges.scope]
      simp only [eq_comm]
    refine h.settles hm hm' hobs (by simp) (fun hfree ha ha' => ?_) hs hs'
    have hscope : m.scope = k.scope := by
      rw [obstacle?_mvar hk hkm] at hfree
      by_contra hne
      rw [if_neg hne] at hfree
      cases hfree
    have hUk : U k := h.unsolved k (by simpa [Ty.Owned] using hown) hk
    have hswap := exchanges_swap (h.unsolved m hm.owns hm.unsolved) hUk hscope
    exact ⟨π * Equiv.swap m k, h.exchanges.mul hswap, h.settled_across hm hm' ha ha'⟩

/-- Parts of types that correspond. -/
theorem exists_parts (h : Lockstep U N π s s') (ha : Corresponds N π a a')
    (hb : Corresponds N π b b') (hp : a.Parts b p p' q q') :
    ∃ p₁ p₁' q₁ q₁', a'.Parts b' p₁ p₁' q₁ q₁' ∧ Linked N π s.table s'.table p p₁ ∧
      Linked N π s.table s'.table p' p₁' ∧ Linked N π s.table s'.table q q₁ ∧
      Linked N π s.table s'.table q' q₁' := by
  cases hp with
  | arrow =>
    have hpa := h.parts _ (ha.mem id)
    have hpb := h.parts _ (hb.mem id)
    cases hpa with
    | arrow hp hq =>
      cases hpb with
      | arrow hp' hq' => exact ⟨_, _, _, _, .arrow, hp, hp', hq, hq'⟩
  | app =>
    have hpa := h.parts _ (ha.mem id)
    have hpb := h.parts _ (hb.mem id)
    cases hpa with
    | app hp hq =>
      cases hpb with
      | app hp' hq' => exact ⟨_, _, _, _, .app, hp, hp', hq, hq'⟩

theorem clashes (h : Lockstep U N π s s') (ha : Corresponds N π a a') (hb : Corresponds N π b b')
    (hc : a.Clashes b) : a'.Clashes b' := by
  have one : ∀ {a a' b : Ty}, Corresponds N π a a' → a.Clashes b → a'.Clashes b := by
    intro a a' b ha hc
    cases ha with
    | mvar => exact hc.elim
    | leaf => exact hc
    | node hN =>
      have hform := h.parts _ hN
      cases hform <;> cases b <;> exact hc
  exact (one hb (one ha hc).symm).symm

end Lockstep

/-- **Two courses from ends that correspond go in step.** -/
theorem Course.lockstep {v v' : Option TypeError.Kind} (hcourse : Course s a b v s₁)
    (hcourse' : Course s' a' b' v' s₁') (h : Lockstep U N π s s') (htb : s.table.Sound)
    (hoa : a.Owned s.table) (hob : b.Owned s.table) (ha : Corresponds N π a a')
    (hb : Corresponds N π b b') : EndInStep U N π s s' v v' s₁ s₁' := by
  induction hcourse generalizing N π s' a' b' v' s₁' with
  | same s a =>
    obtain ⟨rfl, rfl⟩ := hcourse'.of_eq ((h.eq_iff ha hb).1 rfl)
    exact h.endInStep
  | first hne hp hfirst ih =>
    obtain ⟨p₁, p₁', q₁, q₁', hp₁, hlp, hlp', -, -⟩ := h.exists_parts ha hb hp
    have hop := htb.owned_resolve (hp.leaves.1 hoa).1
    have hop' := htb.owned_resolve (hp.symm.leaves.1 hob).1
    rcases hcourse'.of_parts (fun heq => hne ((h.eq_iff ha hb).2 heq)) hp₁ with
      ⟨e, rfl, hfirst'⟩ | ⟨s₂', hfirst', -⟩
    · have hend := ih hfirst' h htb hop hop' hlp hlp'
      exact ⟨hend.outcome, hend.alike, fun hv => by cases hv⟩
    · cases (ih hfirst' h htb hop hop' hlp hlp').outcome
  | both hne hp hfirst hsecond ih ih' =>
    obtain ⟨p₁, p₁', q₁, q₁', hp₁, hlp, hlp', hlq, hlq'⟩ := h.exists_parts ha hb hp
    have hopq := hp.leaves.1 hoa
    have hopq' := hp.symm.leaves.1 hob
    have hop := htb.owned_resolve hopq.1
    have hop' := htb.owned_resolve hopq'.1
    rcases hcourse'.of_parts (fun heq => hne ((h.eq_iff ha hb).2 heq)) hp₁ with
      ⟨e, rfl, hfirst'⟩ | ⟨s₂', hfirst', hsecond'⟩
    · cases (ih hfirst' h htb hop hop' hlp hlp').outcome
    · obtain ⟨N', π', h₂, hlink⟩ := (ih hfirst' h htb hop hop' hlp hlp').lockstep rfl
      obtain ⟨htb₂, howns⟩ := hfirst.sound htb hop hop' rfl
      have keep : ∀ {t : Ty}, t.Owned _ → (_ : Ty).Owned _ := fun {t} ht =>
        htb₂.owned_resolve (t := t) (ht.mono (fun m hm => (howns m).trans hm) fun _ h => h)
      have hend := ih' hsecond' h₂ htb₂ (keep hopq.2) (keep hopq'.2) (hlink _ _ hlq)
        (hlink _ _ hlq')
      exact hend.of_linked hlink
  | all hne hopens hbodies ih =>
    have hpa := h.parts _ (ha.mem id)
    have hpb := h.parts _ (hb.mem id)
    cases hpa with
    | all hla =>
      cases hpb with
      | all hlb =>
        obtain ⟨t₁', u₁', s₂', hopens', hbodies'⟩ :=
          hcourse'.of_all fun heq => hne ((h.eq_iff ha hb).2 heq)
        obtain ⟨N', hN, h₂, ht, hu⟩ := h.opens hopens hopens' hla hlb
        obtain ⟨htb₂, hot, hou⟩ := hopens.owned htb hoa hob
        refine (ih hbodies' h₂ htb₂ hot hou ht hu).of_linked fun w w' hw => ?_
        rw [hopens.table, hopens'.table]
        exact hw.mono hN
  | left hm hs =>
    cases h.eq_mvar ha
    exact h.solves hb hob hm hs hcourse'
  | right hm hs =>
    cases h.eq_mvar hb
    exact h.solves ha hoa hm hs hcourse'.symm
  | clash hne hc hresp =>
    obtain ⟨rfl, hresp'⟩ := hcourse'.of_clash (fun heq => hne ((h.eq_iff ha hb).2 heq))
      (h.clashes ha hb hc)
    exact ⟨rfl, h.alike.restates hresp hresp', fun hv => by cases hv⟩

end

/-! ## Changing sides -/

/-- The nodes that the run has made, each beside itself. -/
def Run.nodes (r : Run) : Set (Ty × Ty) := {p | p.2 = p.1 ∧ ¬ p.1.IsLeaf ∧ p.1.Made r}

section

variable {r : Run} {a b t : Ty} {m : MVar}

theorem Run.Tidy.sound (hr : r.Tidy) : r.table.Sound := ⟨hr.acyclic, hr.solutions⟩

theorem Ty.label_lt_stampBound (ht : ¬ t.IsLeaf) : t.label < t.stampBound := by
  cases t with
  | all | arrow | app => simp [Ty.label, Ty.stampBound]
  | _ => exact absurd trivial ht

theorem Ty.Made.corresponds (ht : t.Made r) : Corresponds r.nodes 1 t t := by
  cases t with
  | mvar m => exact .mvar m
  | all | arrow | app => exact .node ⟨rfl, id, ht⟩
  | _ => exact .leaf trivial (by simp)

/-- A type that the run has made is linked to itself. -/
theorem Run.Made.linked (hmade : r.Made) (ha : r.table.Acyclic) (ht : t.Made r) :
    Linked r.nodes 1 r.table r.table t t := by
  induction t using ha.induction with
  | unsolved m hm =>
    have hends := Table.ends_mvar hm
    exact linked_of_ends ht.corresponds hends hends
  | solved m t hm ih =>
    unfold Linked
    rw [ha.resolve_solved hm]
    exact ih (hmade m t hm)
  | _ => exact ht.corresponds

/-- A run is in step with itself. -/
theorem Run.Made.lockstep (hmade : r.Made) (ha : r.table.Acyclic) :
    Lockstep r.Unsolved r.nodes 1 r.stage r.stage where
  acyclic := ha
  acyclic_right := ha
  skolems := rfl
  exchanges := exchanges_one _
  unsolved _ ho hm := ⟨ho, hm⟩
  oneToOne := by
    rintro p ⟨hp, -, -⟩ q ⟨hq, -, -⟩
    rw [hp, hq]
  made := by
    rintro ⟨t, u⟩ ⟨hu, hnode, ht⟩
    obtain rfl : u = t := hu
    have hlt : u.label < r.stamps := (Ty.label_lt_stampBound hnode).trans_le ht
    exact ⟨hlt, hlt⟩
  parts := by
    rintro ⟨t, u⟩ ⟨hu, hnode, ht⟩
    obtain rfl : u = t := hu
    cases u with
    | all n x body => exact .all (hmade.linked ha (Ty.made_all.1 ht).2)
    | arrow n p q =>
      obtain ⟨-, hp, hq⟩ := Ty.made_arrow.1 ht
      exact .arrow (hmade.linked ha hp) (hmade.linked ha hq)
    | app n p q =>
      obtain ⟨-, hp, hq⟩ := Ty.made_app.1 ht
      exact .app (hmade.linked ha hp) (hmade.linked ha hq)
    | _ => exact absurd trivial hnode
  mvars m := by
    cases hm : r.table.solution? m with
    | none =>
      have hends := Table.ends_mvar hm
      exact linked_of_ends (.mvar m) hends hends
    | some t =>
      have hlink := hmade.linked ha (hmade m t hm)
      rwa [Linked, ← ha.resolve_solved hm] at hlink

/-- **Unification is symmetric.** In every attainable run, for all types over metavariables of the
run and whatever constants: `unify a b` succeeds exactly if `unify b a` does, both fail with errors of
one kind otherwise, and the runs they leave give every type the same pruned form, up to an exchange of
metavariables of equal scope that were unsolved before. -/
theorem Attainable.unify_comm (h : Attainable r) (ha : a.Held r) (hb : b.Held r) :
    (unify a b).EndAlike r (unify b a) r (fun _ r' _ s' => r'.SameUpTo r.Unsolved s')
      (Run.SameUpTo r.Unsolved) := by
  obtain ⟨hr, hmade⟩ := h.orderly
  have htb := hr.sound
  refine Concludes.endAlike (unify_courses htb ha.1 hb.1) (unify_courses htb hb.1 ha.1).symm
    (unify_finishes hr.acyclic a b) (unify_finishes hr.acyclic b a) fun v v' r' s' h h' => ?_
  have hend := h.lockstep h' (hmade.lockstep hr.acyclic) htb (htb.owned_resolve ha.1)
    (htb.owned_resolve hb.1) (hmade.linked hr.acyclic ha.2) (hmade.linked hr.acyclic hb.2)
  obtain ⟨π, hπ, hexpand⟩ := hend.alike.expand
  exact ⟨hend.outcome, .of_expand hend.alike.acyclic hend.alike.acyclic_right hπ hexpand⟩

end

/-- Let `?0`, `?1` and `?2` have the scope `[#0]`, and `?2` be solved by `?1`. Unifying
`forall x. ?0 -> x -> #1` with `forall y. ?2 -> #1 -> y` solves `?0` by `?1`, and with the sides changed
it solves `?1` by `?0`. Both calls open the two quantifiers at `#1`. -/
theorem unify_comm_of_two_metavariables :
    let S : Scope := .ofList [0]
    let m : MVar := ⟨3, 0, S⟩
    let k : MVar := ⟨4, 1, S⟩
    let l : MVar := ⟨5, 2, S⟩
    let a : Ty := .all 0 "x" (.arrow 0 (.mvar m) (.arrow 0 (.var "x") (.skolem 1)))
    let b : Ty := .all 0 "y" (.arrow 0 (.mvar l) (.arrow 0 (.skolem 1) (.var "y")))
    let r := (Operation.solve l (.mvar k)).run ((Operation.newMVar S).run ((Operation.newMVar S).run
      ((Operation.newMVar S).run (Operation.newSkolem.run {}))))
    let r' := (Operation.unify a b).run r
    let s' := (Operation.unify b a).run r
    r.skolems = 1 ∧ r.table.solution? l = some (.mvar k) ∧
      unify a b r = .ok () r' ∧ unify b a r = .ok () s' ∧
      r'.table.solution? m = some (.mvar k) ∧ s'.table.solution? k = some (.mvar m) ∧
      r'.SameUpTo r.Unsolved s' := by
  intro S m k l a b r r' s'
  have hr : Attainable r := by
    have h₀ : Attainable {} := .empty ⟨rfl, rfl, rfl⟩
    have h₁ := (h₀.step .newSkolem trivial).step (.newMVar S) trivial
    have h₂ := (h₁.step (.newMVar S) trivial).step (.newMVar S) trivial
    exact h₂.step (.solve l (.mvar k)) (show Ty.Held _ _ by decide)
  have hheld : a.Held r ∧ b.Held r := by decide
  have hstart : r.skolems = 1 ∧ r.table.solution? l = some (.mvar k) := by decide
  have hu : unify a b r = .ok () r' := Action.eq_ok_after (by decide +kernel)
  have hu' : unify b a r = .ok () s' := Action.eq_ok_after (by decide +kernel)
  have hsol : r'.table.solution? m = some (.mvar k) ∧ s'.table.solution? k = some (.mvar m) := by
    decide +kernel
  clear_value r' s' r
  exact ⟨hstart.1, hstart.2, hu, hu', hsol.1, hsol.2,
    (hr.unify_comm hheld.1 hheld.2).of_ok hu hu'⟩

end RankN
