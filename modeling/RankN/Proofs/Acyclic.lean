import RankN.Table
import Mathlib.Logic.Relation
import Mathlib.Data.Finset.Card

/-!
# Tables without cycles

A solved metavariable *points* to the metavariables in its solution. A table is acyclic when no
metavariable leads back to itself this way.

**Counting.** In an acyclic table every step along a solution leaves one solved metavariable behind
for good: it is not among those that can still be reached. So the number of solved metavariables
that `m` leads to, `Table.nesting m`, decreases along `Table.Points`. It is never more than the
size of the table, which is why `Table.hops` bounds every walk through the table.

**Induction.** What holds of a type because it holds of its parts, and of a solved metavariable
because it holds of its solution, holds of every type (`Table.Acyclic.induction`).

Main results: `nesting_lt`, `Acyclic.induction`, and `acyclic_write`, which says when solving a
metavariable keeps a table acyclic.
-/

namespace RankN

/-! ## What occurs in a type -/

namespace Ty

/-- The metavariables in a type, left to right. -/
@[simp]
def mvars : Ty → List MVar
  | .all _ _ body => body.mvars
  | .arrow _ param result => param.mvars ++ result.mvars
  | .app _ fn arg => fn.mvars ++ arg.mvars
  | .mvar m => [m]
  | .var _ | .skolem _ | .unknown _ _ | .absent => []

/-- The skolem constants in a type, left to right. -/
@[simp]
def skolems : Ty → List Int
  | .all _ _ body => body.skolems
  | .arrow _ param result => param.skolems ++ result.skolems
  | .app _ fn arg => fn.skolems ++ arg.skolems
  | .skolem id => [id]
  | .var _ | .mvar _ | .unknown _ _ | .absent => []

@[simp]
theorem mvars_plain (t : Ty) : t.plain.mvars = t.mvars := by
  induction t with
  | all n x body ih => simp [plain, ih]
  | arrow n p q ihp ihq => simp [plain, ihp, ihq]
  | app n f a ihf iha => simp [plain, ihf, iha]
  | _ => rfl

/-- Every metavariable in the type satisfies `P`, and every skolem constant `Q`. -/
def Leaves (P : MVar → Prop) (Q : Int → Prop) (t : Ty) : Prop :=
  (∀ m ∈ t.mvars, P m) ∧ ∀ id ∈ t.skolems, Q id

instance {P : MVar → Prop} {Q : Int → Prop} [DecidablePred P] [DecidablePred Q] (t : Ty) :
    Decidable (t.Leaves P Q) := inferInstanceAs (Decidable (_ ∧ _))

section

variable {P P' : MVar → Prop} {Q Q' : Int → Prop}

theorem Leaves.mono {t : Ty} (h : t.Leaves P Q) (hP : ∀ m, P m → P' m)
    (hQ : ∀ id, Q id → Q' id) : t.Leaves P' Q' :=
  ⟨fun m hm => hP m (h.1 m hm), fun id hid => hQ id (h.2 id hid)⟩

@[simp] theorem leaves_var (x : String) : (var x).Leaves P Q := by simp [Leaves]

@[simp] theorem leaves_unknown (n : Nat) (k : String) : (unknown n k).Leaves P Q := by simp [Leaves]

@[simp] theorem leaves_absent : absent.Leaves P Q := by simp [Leaves]

@[simp] theorem leaves_mvar {m : MVar} : (mvar m).Leaves P Q ↔ P m := by simp [Leaves]

@[simp] theorem leaves_skolem {id : Int} : (skolem id).Leaves P Q ↔ Q id := by simp [Leaves]

@[simp] theorem leaves_all {n : Nat} {x : String} {body : Ty} :
    (all n x body).Leaves P Q ↔ body.Leaves P Q := Iff.rfl

@[simp] theorem leaves_arrow {n : Nat} {p q : Ty} :
    (arrow n p q).Leaves P Q ↔ p.Leaves P Q ∧ q.Leaves P Q := by
  simp only [Leaves, mvars, skolems, List.mem_append, or_imp, forall_and]
  exact and_and_and_comm

@[simp] theorem leaves_app {n : Nat} {f a : Ty} :
    (app n f a).Leaves P Q ↔ f.Leaves P Q ∧ a.Leaves P Q := by
  simp only [Leaves, mvars, skolems, List.mem_append, or_imp, forall_and]
  exact and_and_and_comm

@[simp]
theorem leaves_plain {t : Ty} : t.plain.Leaves P Q ↔ t.Leaves P Q := by
  induction t with
  | all n x body ih => simp [plain, ih]
  | arrow n p q ihp ihq => simp [plain, ihp, ihq]
  | app n f a ihf iha => simp [plain, ihf, iha]
  | _ => simp [plain]

end

end Ty

namespace Table

variable {tb tb' : Table} {m m' : MVar} {t : Ty}

open Relation

/-! ## Owned metavariables -/

@[simp]
theorem solution?_empty (m : MVar) : ({} : Table).solution? m = none := by simp [solution?, slot?]

@[simp]
theorem owns_empty (m : MVar) : ({} : Table).owns m = false := by simp [owns, slot?]

theorem owns_iff : tb.owns m ↔ ∃ s, tb.slots[m.id.toNat]? = some s ∧ s.mvar = m := by
  simp only [owns, Option.isSome_iff_exists, slot?_eq_some]

theorem owns_iff_mvarAt? : tb.owns m ↔ tb.mvarAt? m.id.toNat = some m := by
  simp [owns_iff, mvarAt?]

@[simp]
theorem mvarAt?_write (tb : Table) (m : MVar) (t : Ty) (i : Nat) :
    (tb.write m t).mvarAt? i = tb.mvarAt? i := by
  unfold write mvarAt?
  split
  · rw [Array.getElem?_modify]
    split
    · simp [Function.comp_def]
    · rfl
  · rfl

theorem owns_of_solution? (h : tb.solution? m = some t) : tb.owns m := by
  cases hs : tb.slot? m with
  | none => simp [solution?, hs] at h
  | some s => simp [owns, hs]

theorem lt_size_of_owns (h : tb.owns m) : m.id.toNat < tb.size := by
  obtain ⟨s, hs, -⟩ := owns_iff.1 h
  exact (Array.getElem?_eq_some_iff.1 hs).1

/-- A position belongs to at most one owned metavariable. -/
theorem eq_of_owns (h : tb.owns m) (h' : tb.owns m') (hid : m.id.toNat = m'.id.toNat) : m = m' := by
  obtain ⟨s, hs, rfl⟩ := owns_iff.1 h
  obtain ⟨s', hs', rfl⟩ := owns_iff.1 h'
  rw [hid, hs'] at hs
  cases hs
  rfl

theorem eq_or_owns_of_owns_push (h : (tb.push m).owns m') : m' = m ∨ tb.owns m' := by
  obtain ⟨s, hs, rfl⟩ := owns_iff.1 h
  rw [push, Array.getElem?_push] at hs
  split at hs
  · cases hs
    exact .inl rfl
  · exact .inr (owns_iff.2 ⟨s, hs, rfl⟩)

theorem owns_push_iff (hm : m.id = tb.size) : (tb.push m).owns m' ↔ m' = m ∨ tb.owns m' := by
  constructor
  · exact eq_or_owns_of_owns_push
  · rintro (rfl | h)
    · exact owns_push_self tb hm
    · exact owns_push_of_owns h

/-- Pushing a metavariable moves no other. -/
theorem mvarAt?_push_of_eq_some {i : Nat} (h : tb.mvarAt? i = some m) (m' : MVar) :
    (tb.push m').mvarAt? i = some m := by
  obtain ⟨s, hs, rfl⟩ := Option.map_eq_some_iff.1 h
  have hi : i ≠ tb.slots.size := Nat.ne_of_lt (Array.getElem?_eq_some_iff.1 hs).1
  rw [mvarAt?, push, Array.getElem?_push, if_neg hi, hs]
  rfl

/-! ## Pointing -/

/-- The metavariable `m'` occurs in the solution of `m`. -/
def Points (tb : Table) (m m' : MVar) : Prop := ∃ t, tb.solution? m = some t ∧ m' ∈ t.mvars

/-- No metavariable leads back to itself through solutions. -/
def Acyclic (tb : Table) : Prop := ∀ m, ¬ TransGen tb.Points m m

theorem Points.owns (h : tb.Points m m') : tb.owns m := by
  obtain ⟨t, ht, -⟩ := h
  exact owns_of_solution? ht

theorem acyclic_empty : ({} : Table).Acyclic := by
  intro m h
  obtain ⟨m', ⟨t, ht, -⟩, -⟩ := TransGen.head'_iff.1 h
  simp at ht

/-- Tables with the same solutions are acyclic together. -/
theorem Acyclic.congr (h : tb.Acyclic) (hs : ∀ m, tb'.solution? m = tb.solution? m) :
    tb'.Acyclic := by
  have hp : tb'.Points = tb.Points := by
    funext m m'
    simp only [Points, hs]
  intro m
  rw [hp]
  exact h m

/-! ## How far a metavariable leads -/

open Classical in
/-- The positions of the solved metavariables that `m` leads to, its own included. -/
noncomputable def reach (tb : Table) (m : MVar) : Finset Nat :=
  (Finset.range tb.size).filter fun i =>
    ∃ m', m'.id.toNat = i ∧ (∃ t, tb.solution? m' = some t) ∧ ReflTransGen tb.Points m m'

theorem mem_reach {i : Nat} : i ∈ tb.reach m ↔
    ∃ m', m'.id.toNat = i ∧ (∃ t, tb.solution? m' = some t) ∧ ReflTransGen tb.Points m m' := by
  simp only [reach, Finset.mem_filter, Finset.mem_range, and_iff_right_iff_imp]
  rintro ⟨m', rfl, ⟨t, ht⟩, -⟩
  exact lt_size_of_owns (owns_of_solution? ht)

/-- The number of solved metavariables that `m` leads to. -/
noncomputable def nesting (tb : Table) (m : MVar) : Nat := (tb.reach m).card

theorem nesting_le_size (tb : Table) (m : MVar) : tb.nesting m ≤ tb.size := by
  have hsub : tb.reach m ⊆ Finset.range tb.size := by
    intro i hi
    obtain ⟨m', rfl, ⟨t, ht⟩, -⟩ := mem_reach.1 hi
    exact Finset.mem_range.2 (lt_size_of_owns (owns_of_solution? ht))
  simpa [nesting] using Finset.card_le_card hsub

/-- Every position reached from the solution of `m` is reached from `m`. -/
theorem reach_subset (h : tb.Points m m') : tb.reach m' ⊆ tb.reach m := by
  intro i hi
  obtain ⟨k, hk, hs, hr⟩ := mem_reach.1 hi
  exact mem_reach.2 ⟨k, hk, hs, ReflTransGen.head h hr⟩

/-- The position of `m` is not reached from its solution. -/
theorem Acyclic.not_mem_reach (ha : tb.Acyclic) (h : tb.Points m m') :
    m.id.toNat ∉ tb.reach m' := by
  intro hi
  obtain ⟨k, hk, ⟨t, ht⟩, hr⟩ := mem_reach.1 hi
  have : k = m := eq_of_owns (owns_of_solution? ht) h.owns hk
  subst this
  exact ha k (TransGen.head' h hr)

theorem mem_reach_self (h : tb.solution? m = some t) : m.id.toNat ∈ tb.reach m :=
  mem_reach.2 ⟨m, rfl, ⟨t, h⟩, .refl⟩

/-- Following a solution leads less far. -/
theorem Acyclic.nesting_lt (ha : tb.Acyclic) (h : tb.Points m m') :
    tb.nesting m' < tb.nesting m := by
  refine Finset.card_lt_card ⟨reach_subset h, fun hsub => ha.not_mem_reach h (hsub ?_)⟩
  obtain ⟨t, ht, -⟩ := h
  exact mem_reach_self ht

theorem nesting_pos (h : tb.solution? m = some t) : 0 < tb.nesting m :=
  Finset.card_pos.2 ⟨_, mem_reach_self h⟩

/-- A type in which at most `n` solutions are nested. -/
def Within (tb : Table) (n : Nat) (t : Ty) : Prop := ∀ m ∈ t.mvars, tb.nesting m ≤ n

theorem within_size (tb : Table) (t : Ty) : tb.Within tb.size t :=
  fun m _ => tb.nesting_le_size m

/-- One solution further in, one less is nested. -/
theorem Acyclic.within_solution (ha : tb.Acyclic) {n : Nat} (hm : tb.nesting m ≤ n + 1)
    (ht : tb.solution? m = some t) : tb.Within n t := by
  intro m' hm'
  have := ha.nesting_lt ⟨t, ht, hm'⟩
  omega

/-- Where no solution is nested, no metavariable is solved. -/
theorem Within.unsolved (h : tb.Within 0 t) (hm : m ∈ t.mvars) : tb.solution? m = none := by
  cases hs : tb.solution? m with
  | none => rfl
  | some u =>
    have hpos := nesting_pos hs
    have := h m hm
    omega

/-- **Induction through solutions.** -/
theorem Acyclic.induction (ha : tb.Acyclic) {P : Ty → Prop}
    (var : ∀ x, P (.var x))
    (all : ∀ n x body, P body → P (.all n x body))
    (arrow : ∀ n p q, P p → P q → P (.arrow n p q))
    (app : ∀ n f a, P f → P a → P (.app n f a))
    (unsolved : ∀ m, tb.solution? m = none → P (.mvar m))
    (solved : ∀ m t, tb.solution? m = some t → P t → P (.mvar m))
    (skolem : ∀ id, P (.skolem id)) (unknown : ∀ n k, P (.unknown n k)) (absent : P .absent)
    (t : Ty) : P t := by
  have leaves : ∀ t : Ty, (∀ m ∈ t.mvars, P (.mvar m)) → P t := by
    intro t ht
    induction t with
    | var x => exact var x
    | all n x body ih => exact all n x body (ih ht)
    | arrow n p q ihp ihq =>
      exact arrow n p q (ihp fun m hm => ht m (by simp [hm])) (ihq fun m hm => ht m (by simp [hm]))
    | app n f a ihf iha =>
      exact app n f a (ihf fun m hm => ht m (by simp [hm])) (iha fun m hm => ht m (by simp [hm]))
    | mvar m => exact ht m (by simp)
    | skolem id => exact skolem id
    | unknown n k => exact unknown n k
    | absent => exact absent
  -- For metavariables the induction is on how many solutions are nested.
  have main : ∀ n m, tb.nesting m ≤ n → P (.mvar m) := by
    intro n
    induction n with
    | zero =>
      intro m hm
      cases hs : tb.solution? m with
      | none => exact unsolved m hs
      | some u =>
        have := nesting_pos hs
        omega
    | succ n ih =>
      intro m hm
      cases hs : tb.solution? m with
      | none => exact unsolved m hs
      | some u =>
        exact solved m u hs (leaves u fun m' hm' => ih m' (ha.within_solution hm hs m' hm'))
  exact leaves t fun m _ => main _ m le_rfl

/-! ## Keeping a table acyclic -/

/-- `m'` can be reached from `t` through solutions. -/
def Reaches (tb : Table) (t : Ty) (m' : MVar) : Prop := ∃ m ∈ t.mvars, ReflTransGen tb.Points m m'

theorem points_write (hu : tb.owns m) {a b : MVar} :
    (tb.write m t).Points a b ↔ (a = m ∧ b ∈ t.mvars) ∨ (a ≠ m ∧ tb.Points a b) := by
  by_cases hab : a = m
  · subst hab
    simp [Points, solution?_write_self hu]
  · simp [Points, solution?_write_of_ne tb hab, hab]

/-- **Solving keeps a table acyclic** if the solution does not lead to the metavariable. -/
theorem Acyclic.write (ha : tb.Acyclic) (hu : tb.owns m) (ht : ¬ tb.Reaches t m) :
    (tb.write m t).Acyclic := by
  -- A new path to `m` uses no new edge: it ends where it first meets `m`.
  have old : ∀ b, ReflTransGen (tb.write m t).Points b m → ReflTransGen tb.Points b m := by
    intro b hb
    induction hb using ReflTransGen.head_induction_on with
    | refl => exact .refl
    | head hbc _ ih =>
      rcases (points_write hu).1 hbc with ⟨rfl, -⟩ | ⟨-, hbc⟩
      · exact .refl
      · exact .head hbc ih
  have split : ∀ a b, TransGen (tb.write m t).Points a b →
      TransGen tb.Points a b ∨ ReflTransGen (tb.write m t).Points a m ∧
        ∃ c ∈ t.mvars, ReflTransGen (tb.write m t).Points c b := by
    intro a b hab
    induction hab with
    | single hab =>
      rcases (points_write hu).1 hab with ⟨rfl, hb⟩ | ⟨-, hab⟩
      · exact .inr ⟨.refl, _, hb, .refl⟩
      · exact .inl (.single hab)
    | tail hab hbc ih =>
      rcases ih with ih | ⟨hm, c, hc, hcb⟩
      · rcases (points_write hu).1 hbc with ⟨rfl, hb⟩ | ⟨-, hbc⟩
        · exact .inr ⟨hab.to_reflTransGen, _, hb, .refl⟩
        · exact .inl (ih.tail hbc)
      · exact .inr ⟨hm, c, hc, hcb.tail hbc⟩
  intro a haa
  rcases split a a haa with h | ⟨ham, c, hc, hca⟩
  · exact ha a h
  · exact ht ⟨c, hc, old c (hca.trans ham)⟩

/-- Solving a metavariable by a type over other metavariables, none of them solved. -/
theorem Acyclic.write_of_unsolved (ha : tb.Acyclic) (hu : tb.owns m)
    (ht : ∀ k ∈ t.mvars, k ≠ m ∧ tb.solution? k = none) : (tb.write m t).Acyclic := by
  refine ha.write hu fun ⟨k, hk, hkm⟩ => ?_
  obtain ⟨hne, hnone⟩ := ht k hk
  rcases ReflTransGen.cases_head hkm with rfl | ⟨j, ⟨u, hu, -⟩, -⟩
  · exact hne rfl
  · rw [hnone] at hu
    cases hu

/-- A table whose solutions lead no further than those of an acyclic one is acyclic. -/
theorem Acyclic.of_points (ha : tb.Acyclic)
    (hp : ∀ a b, tb'.Points a b → TransGen tb.Points a b) : tb'.Acyclic := by
  intro m hm
  exact ha m (TransGen.closed (fun a b => hp a b) m m hm)

end Table

end RankN
