import RankN.Obstacle
import RankN.Proofs.Acyclic

/-!
# Expansion

The expansion of a type is what it means in a table: every solved metavariable is replaced by the
expansion of its solution, and stamps are forgotten. In an acyclic table expansion obeys the
equations one expects (`expand_solved`, `expand_unsolved`, and one for each other constructor), and
the bound on how many solutions may be entered disappears from the reasoning.

Two questions about a type are answered by its expansion alone: which unsolved metavariables it
leads to (`mem_mvars_expand`), and what stands in the way of solving a metavariable by it
(`obstacle?_eq`).

**Solving** a metavariable changes an expansion in one way: the metavariable is filled in
(`expand_write`).
-/

namespace RankN

namespace Ty

/-- The type with its metavariables filled in. -/
@[simp]
def fill (f : MVar → Ty) : Ty → Ty
  | .mvar m => f m
  | .all n x body => .all n x (body.fill f)
  | .arrow n p q => .arrow n (p.fill f) (q.fill f)
  | .app n fn arg => .app n (fn.fill f) (arg.fill f)
  | .var x => .var x
  | .skolem id => .skolem id
  | .unknown n k => .unknown n k
  | .absent => .absent

theorem fill_eq_self {f : MVar → Ty} {t : Ty} (h : ∀ m ∈ t.mvars, f m = .mvar m) :
    t.fill f = t := by
  induction t with
  | all n x body ih => simpa using ih h
  | arrow n p q ihp ihq =>
    simp only [mvars, List.mem_append] at h
    simp [ihp fun m hm => h m (.inl hm), ihq fun m hm => h m (.inr hm)]
  | app n fn arg ihf iha =>
    simp only [mvars, List.mem_append] at h
    simp [ihf fun m hm => h m (.inl hm), iha fun m hm => h m (.inr hm)]
  | mvar m => exact h m (by simp)
  | _ => rfl

/-- Filling in one metavariable changes only types that mention it. -/
theorem fill_update_of_not_mem {m : MVar} {new t : Ty} (h : m ∉ t.mvars) :
    t.fill (Function.update .mvar m new) = t := by
  refine fill_eq_self fun k hk => Function.update_of_ne ?_ _ _
  rintro rfl
  exact h hk

theorem leaves_fill {P : MVar → Prop} {Q : Int → Prop} {f : MVar → Ty} {t : Ty} :
    (t.fill f).Leaves P Q ↔ t.Leaves (fun m => (f m).Leaves P Q) Q := by
  induction t with
  | all n x body ih => exact ih
  | arrow n p q ihp ihq => simp [ihp, ihq]
  | app n fn arg ihf iha => simp [ihf, iha]
  | _ => simp

@[simp]
theorem plain_plain (t : Ty) : t.plain.plain = t.plain := by
  induction t with
  | all n x body ih => simp [plain, ih]
  | arrow n p q ihp ihq => simp [plain, ihp, ihq]
  | app n f a ihf iha => simp [plain, ihf, iha]
  | _ => rfl

end Ty

namespace Table

open Relation

variable {tb tb' : Table} {m m' : MVar} {t u : Ty}

/-! ## The expansion of a type -/

/-- Expand a type, with `enter` for the solutions of metavariables. -/
def expandWith (tb : Table) (enter : Ty → Ty) : Ty → Ty
  | .mvar m =>
    match tb.solution? m with
    | some t => enter t
    | none => .mvar m
  | .all _ x body => .all 0 x (expandWith tb enter body)
  | .arrow _ p q => .arrow 0 (expandWith tb enter p) (expandWith tb enter q)
  | .app _ f a => .app 0 (expandWith tb enter f) (expandWith tb enter a)
  | t => t

/-- Expand a type, entering at most `n` nested solutions. -/
def expandWithin (tb : Table) : Nat → Ty → Ty
  | 0, t => t.plain
  | n + 1, t => expandWith tb (expandWithin tb n) t

/-- The type with every solved metavariable replaced by its expanded solution, without stamps but
those that tell metavariables and unknown types apart. -/
def expand (tb : Table) (t : Ty) : Ty := tb.expandWithin tb.hops t

@[simp] theorem expand_var (x : String) : tb.expand (.var x) = .var x := rfl

@[simp] theorem expand_skolem (id : Int) : tb.expand (.skolem id) = .skolem id := rfl

@[simp] theorem expand_unknown (n : Nat) (k : String) :
    tb.expand (.unknown n k) = .unknown n k := rfl

@[simp] theorem expand_absent : tb.expand .absent = .absent := rfl

@[simp] theorem expand_all (n : Nat) (x : String) (body : Ty) :
    tb.expand (.all n x body) = .all 0 x (tb.expand body) := rfl

@[simp] theorem expand_arrow (n : Nat) (p q : Ty) :
    tb.expand (.arrow n p q) = .arrow 0 (tb.expand p) (tb.expand q) := rfl

@[simp] theorem expand_app (n : Nat) (f a : Ty) :
    tb.expand (.app n f a) = .app 0 (tb.expand f) (tb.expand a) := rfl

theorem expandWith_of_unsolved {enter : Ty → Ty} (h : ∀ m ∈ t.mvars, tb.solution? m = none) :
    tb.expandWith enter t = t.plain := by
  induction t with
  | all n x body ih => simp [expandWith, Ty.plain, ih h]
  | arrow n p q ihp ihq =>
    simp [expandWith, Ty.plain, ihp fun m hm => h m (by simp [hm]),
      ihq fun m hm => h m (by simp [hm])]
  | app n f a ihf iha =>
    simp [expandWith, Ty.plain, ihf fun m hm => h m (by simp [hm]),
      iha fun m hm => h m (by simp [hm])]
  | mvar m => simp [expandWith, Ty.plain, h m (by simp)]
  | _ => rfl

theorem expandWith_congr {enter enter' : Ty → Ty}
    (h : ∀ m ∈ t.mvars, ∀ u, tb.solution? m = some u → enter u = enter' u) :
    tb.expandWith enter t = tb.expandWith enter' t := by
  induction t with
  | all n x body ih => simp [expandWith, ih h]
  | arrow n p q ihp ihq =>
    simp [expandWith, ihp fun m hm => h m (by simp [hm]), ihq fun m hm => h m (by simp [hm])]
  | app n f a ihf iha =>
    simp [expandWith, ihf fun m hm => h m (by simp [hm]), iha fun m hm => h m (by simp [hm])]
  | mvar m =>
    cases hs : tb.solution? m with
    | none => simp [expandWith, hs]
    | some u => simp [expandWith, hs, h m (by simp) u hs]
  | _ => rfl

/-- Entering more solutions than are nested changes nothing. -/
theorem Acyclic.expandWithin_eq (ha : tb.Acyclic) {n n' : Nat} (h : tb.Within n t)
    (h' : tb.Within n' t) : tb.expandWithin n t = tb.expandWithin n' t := by
  induction n generalizing n' t with
  | zero =>
    cases n' with
    | zero => rfl
    | succ n' => exact (expandWith_of_unsolved fun m hm => h.unsolved hm).symm
  | succ n ih =>
    cases n' with
    | zero => exact expandWith_of_unsolved fun m hm => h'.unsolved hm
    | succ n' =>
      refine expandWith_congr fun m hm u hu => ?_
      exact ih (ha.within_solution (h m hm) hu) (ha.within_solution (h' m hm) hu)

theorem expand_unsolved (h : tb.solution? m = none) : tb.expand (.mvar m) = .mvar m := by
  simp [expand, hops, expandWithin, expandWith, h]

/-- A solved metavariable means its solution. -/
theorem Acyclic.expand_solved (ha : tb.Acyclic) (h : tb.solution? m = some t) :
    tb.expand (.mvar m) = tb.expand t := by
  have : tb.expand (.mvar m) = tb.expandWithin tb.size t := by
    simp [expand, hops, expandWithin, expandWith, h]
  rw [this]
  refine ha.expandWithin_eq (within_size tb t) fun m _ => ?_
  have := tb.nesting_le_size m
  unfold hops
  omega

theorem expand_of_unsolved (h : ∀ m ∈ t.mvars, tb.solution? m = none) : tb.expand t = t.plain :=
  expandWith_of_unsolved h

/-- Expansion depends on the solutions alone. -/
theorem Acyclic.expand_congr (ha : tb.Acyclic) (hs : ∀ m, tb'.solution? m = tb.solution? m)
    (t : Ty) : tb'.expand t = tb.expand t := by
  have ha' := ha.congr hs
  induction t using ha.induction with
  | var | skolem | unknown | absent => rfl
  | all n x body ih => simp [ih]
  | arrow n p q ihp ihq => simp [ihp, ihq]
  | app n f a ihf iha => simp [ihf, iha]
  | unsolved m hm => rw [expand_unsolved hm, expand_unsolved ((hs m).trans hm)]
  | solved m t hm ih => rw [ha.expand_solved hm, ha'.expand_solved ((hs m).trans hm), ih]

/-! ## What occurs in an expansion -/

theorem reaches_arrow {n : Nat} {p q : Ty} :
    tb.Reaches (.arrow n p q) m ↔ tb.Reaches p m ∨ tb.Reaches q m := by
  simp [Reaches, or_and_right, exists_or]

theorem reaches_app {n : Nat} {f a : Ty} :
    tb.Reaches (.app n f a) m ↔ tb.Reaches f m ∨ tb.Reaches a m := by
  simp [Reaches, or_and_right, exists_or]

theorem reaches_unsolved (h : tb.solution? m = none) : tb.Reaches (.mvar m) m' ↔ m' = m := by
  simp only [Reaches, Ty.mvars, List.mem_singleton, exists_eq_left]
  constructor
  · intro hr
    rcases ReflTransGen.cases_head hr with rfl | ⟨k, ⟨t, ht, -⟩, -⟩
    · rfl
    · rw [h] at ht
      cases ht
  · rintro rfl
    exact .refl

theorem reaches_solved (h : tb.solution? m = some t) :
    tb.Reaches (.mvar m) m' ↔ m' = m ∨ tb.Reaches t m' := by
  simp only [Reaches, Ty.mvars, List.mem_singleton, exists_eq_left]
  constructor
  · intro hr
    rcases ReflTransGen.cases_head hr with rfl | ⟨k, ⟨u, hu, hk⟩, hr⟩
    · exact .inl rfl
    · rw [h] at hu
      cases hu
      exact .inr ⟨k, hk, hr⟩
  · rintro (rfl | ⟨k, hk, hr⟩)
    · exact .refl
    · exact .head ⟨t, h, hk⟩ hr

/-- **The metavariables of an expansion** are the unsolved ones that the type leads to. -/
theorem Acyclic.mem_mvars_expand (ha : tb.Acyclic) :
    m ∈ (tb.expand t).mvars ↔ tb.Reaches t m ∧ tb.solution? m = none := by
  induction t using ha.induction with
  | var | skolem | unknown | absent => simp [Reaches]
  | all n x body ih => exact ih
  | arrow n p q ihp ihq => simp [ihp, ihq, reaches_arrow, or_and_right]
  | app n f a ihf iha => simp [ihf, iha, reaches_app, or_and_right]
  | unsolved k hk =>
    rw [expand_unsolved hk, reaches_unsolved hk]
    simp only [Ty.mvars, List.mem_singleton]
    exact ⟨fun h => ⟨h, h ▸ hk⟩, fun h => h.1⟩
  | solved k t hk ih =>
    rw [ha.expand_solved hk, ih, reaches_solved hk]
    refine ⟨fun h => ⟨.inr h.1, h.2⟩, fun ⟨h, hm⟩ => ⟨?_, hm⟩⟩
    rcases h with rfl | h
    · rw [hm] at hk
      cases hk
    · exact h

theorem Acyclic.unsolved_of_mem_expand (ha : tb.Acyclic) (h : m ∈ (tb.expand t).mvars) :
    tb.solution? m = none := (ha.mem_mvars_expand.1 h).2

/-- Expanding twice is expanding once. -/
@[simp]
theorem plain_expand (tb : Table) (t : Ty) : (tb.expand t).plain = tb.expand t := by
  have with_plain : ∀ {enter : Ty → Ty}, (∀ u, (enter u).plain = enter u) →
      ∀ u, (tb.expandWith enter u).plain = tb.expandWith enter u := by
    intro enter he u
    induction u with
    | all n x body ih => simp [expandWith, Ty.plain, ih]
    | arrow n p q ihp ihq => simp [expandWith, Ty.plain, ihp, ihq]
    | app n f a ihf iha => simp [expandWith, Ty.plain, ihf, iha]
    | mvar m =>
      cases hs : tb.solution? m with
      | none => simp [expandWith, Ty.plain, hs]
      | some t => simp [expandWith, hs, he]
    | _ => rfl
  have within_plain : ∀ n u, (tb.expandWithin n u).plain = tb.expandWithin n u := by
    intro n
    induction n with
    | zero => exact Ty.plain_plain
    | succ n ih => exact with_plain ih
  exact within_plain _ t

/-- Where one table has all the solutions of another, expanding in the smaller one first changes
nothing. -/
theorem Acyclic.expand_expand_of_le (ha : tb.Acyclic) (ha' : tb'.Acyclic)
    (hle : ∀ m t, tb.solution? m = some t → tb'.solution? m = some t) (t : Ty) :
    tb'.expand (tb.expand t) = tb'.expand t := by
  induction t using ha.induction with
  | var | skolem | unknown | absent => rfl
  | all n x body ih => simp [ih]
  | arrow n p q ihp ihq => simp [ihp, ihq]
  | app n f a ihf iha => simp [ihf, iha]
  | unsolved m hm => rw [expand_unsolved hm]
  | solved m t hm ih => rw [ha.expand_solved hm, ih, ha'.expand_solved (hle m t hm)]

/-- A type is expanded by filling in the expansions of its metavariables. -/
theorem expand_eq_fill (tb : Table) (t : Ty) :
    tb.expand t = t.plain.fill fun m => tb.expand (.mvar m) := by
  induction t with
  | all n x body ih => simp [Ty.plain, ih]
  | arrow n p q ihp ihq => simp [Ty.plain, ihp, ihq]
  | app n f a ihf iha => simp [Ty.plain, ihf, iha]
  | _ => rfl

/-- What occurs in an expansion occurs in the type, or in the expansion of one of its
metavariables. -/
theorem leaves_expand {P : MVar → Prop} {Q : Int → Prop} :
    (tb.expand t).Leaves P Q ↔ t.Leaves (fun m => (tb.expand (.mvar m)).Leaves P Q) Q := by
  rw [expand_eq_fill, Ty.leaves_fill, Ty.leaves_plain]

/-- What holds throughout a type and all solutions holds throughout its expansion. -/
theorem Acyclic.leaves_expand_of (ha : tb.Acyclic) {P : MVar → Prop} {Q : Int → Prop}
    (htb : ∀ m u, tb.solution? m = some u → u.Leaves P Q) (ht : t.Leaves P Q) :
    (tb.expand t).Leaves P Q := by
  induction t using ha.induction with
  | var | skolem | unknown | absent => exact ht
  | all n x body ih => exact ih ht
  | arrow n p q ihp ihq =>
    rw [Ty.leaves_arrow] at ht
    exact Ty.leaves_arrow.2 ⟨ihp ht.1, ihq ht.2⟩
  | app n f a ihf iha =>
    rw [Ty.leaves_app] at ht
    exact Ty.leaves_app.2 ⟨ihf ht.1, iha ht.2⟩
  | unsolved m hm => rwa [expand_unsolved hm]
  | solved m u hm ih => rw [ha.expand_solved hm]; exact ih (htb m u hm)

/-! ## Solving -/

/-- **Solving fills in.** -/
theorem Acyclic.expand_write (ha : tb.Acyclic) (ho : tb.owns m) (hm : tb.solution? m = none)
    (ht : m ∉ (tb.expand t).mvars) (u : Ty) :
    (tb.write m t).expand u = (tb.expand u).fill (Function.update .mvar m (tb.expand t)) := by
  have hr : ¬ tb.Reaches t m := fun h => ht (ha.mem_mvars_expand.2 ⟨h, hm⟩)
  have ha' := ha.write ho hr
  induction u using ha'.induction with
  | var | skolem | unknown | absent => rfl
  | all n x body ih => simp [ih]
  | arrow n p q ihp ihq => simp [ihp, ihq]
  | app n f a ihf iha => simp [ihf, iha]
  | unsolved k hk =>
    have hkm : k ≠ m := by
      rintro rfl
      rw [solution?_write_self ho] at hk
      cases hk
    rw [expand_unsolved hk]
    rw [solution?_write_of_ne tb hkm] at hk
    simp [expand_unsolved hk, hkm]
  | solved k u hk ih =>
    rw [ha'.expand_solved hk, ih]
    by_cases hkm : k = m
    · subst hkm
      rw [solution?_write_self ho] at hk
      cases hk
      rw [expand_unsolved hm, Ty.fill_update_of_not_mem ht]
      simp
    · rw [solution?_write_of_ne tb hkm] at hk
      rw [ha.expand_solved hk]

end Table

/-! ## Obstacles -/

/-- The obstacle is there, in a type without solved metavariables. -/
def Obstacle.In (m : MVar) (t : Ty) : Obstacle → Prop
  | .skolemEscape => ∃ id ∈ t.skolems, id ∉ m.scope
  | .occurs => m ∈ t.mvars
  | .scopeMismatch => ∃ m' ∈ t.mvars, m.scope ≠ m'.scope

/-- A type that may stand for a metavariable of this scope. -/
def Ty.Fits (s : Scope) (t : Ty) : Prop := t.Leaves (·.scope = s) (· ∈ s)

section

variable {tb : Table} {m : MVar} {t : Ty}

theorem obstacle?_empty (m : MVar) (t : Ty) :
    obstacle? {} m t = obstacleWith {} m (fun _ => none) t := rfl

theorem obstacleWith_expand (hm : tb.solution? m = none) {enter : Ty → Option Obstacle}
    (he : ∀ m' ∈ t.mvars, ∀ u, tb.solution? m' = some u →
      enter u = obstacle? {} m (tb.expand u)) (ha : tb.Acyclic) :
    obstacleWith tb m enter t = obstacle? {} m (tb.expand t) := by
  induction t with
  | all n x body ih =>
    simp only [obstacleWith, ih he, Table.expand_all, obstacle?_empty]
  | arrow n p q ihp ihq =>
    simp only [obstacleWith, Table.expand_arrow, obstacle?_empty] at ihp ihq ⊢
    rw [ihp fun m' h => he m' (by simp [h]), ihq fun m' h => he m' (by simp [h])]
  | app n f a ihf iha =>
    simp only [obstacleWith, Table.expand_app, obstacle?_empty] at ihf iha ⊢
    rw [ihf fun m' h => he m' (by simp [h]), iha fun m' h => he m' (by simp [h])]
  | mvar m' =>
    cases hs : tb.solution? m' with
    | none => simp [obstacleWith, hs, Table.expand_unsolved hs, obstacle?_empty]
    | some u =>
      have hne : m' ≠ m := by
        rintro rfl
        rw [hm] at hs
        cases hs
      simp [obstacleWith, hs, hne, he m' (by simp) u hs, ha.expand_solved hs]
  | _ => rfl

/-- **Obstacles are read off the expansion.** -/
theorem obstacle?_eq (ha : tb.Acyclic) (hm : tb.solution? m = none) (t : Ty) :
    obstacle? tb m t = obstacle? {} m (tb.expand t) := by
  have main : ∀ n t, tb.Within n t → obstacleWithin tb m (n + 1) t = obstacle? {} m (tb.expand t) := by
    intro n
    induction n with
    | zero =>
      intro t ht
      refine obstacleWith_expand hm (fun m' h u hu => ?_) ha
      rw [ht.unsolved h] at hu
      cases hu
    | succ n ih =>
      intro t ht
      exact obstacleWith_expand hm (fun m' h u hu => ih u (ha.within_solution (ht m' h) hu)) ha
  exact main _ t (Table.within_size tb t)

theorem obstacle?_empty_eq_none :
    obstacle? {} m t = none ↔ m ∉ t.mvars ∧ t.Fits m.scope := by
  simp only [obstacle?_empty, Ty.Fits]
  induction t with
  | all n x body ih => exact ih
  | arrow n p q ihp ihq =>
    simp only [obstacleWith, Option.or_eq_none_iff, ihp, ihq, Ty.mvars, Ty.leaves_arrow,
      List.mem_append, not_or]
    exact and_and_and_comm
  | app n f a ihf iha =>
    simp only [obstacleWith, Option.or_eq_none_iff, ihf, iha, Ty.mvars, Ty.leaves_app,
      List.mem_append, not_or]
    exact and_and_and_comm
  | mvar m' =>
    by_cases hmm : m' = m
    · simp [obstacleWith, hmm]
    · simp [obstacleWith, hmm, Ne.symm hmm, eq_comm (a := m.scope)]
  | skolem id => simp [obstacleWith]
  | _ => simp [obstacleWith]

/-- Nothing stands in the way exactly if the expansion fits and does not mention the metavariable. -/
theorem obstacle?_eq_none (ha : tb.Acyclic) (hm : tb.solution? m = none) :
    obstacle? tb m t = none ↔ m ∉ (tb.expand t).mvars ∧ (tb.expand t).Fits m.scope := by
  rw [obstacle?_eq ha hm, obstacle?_empty_eq_none]

/-- An obstacle that is reported is there. -/
theorem obstacle?_eq_some (ha : tb.Acyclic) (hm : tb.solution? m = none) {why : Obstacle}
    (h : obstacle? tb m t = some why) : why.In m (tb.expand t) := by
  rw [obstacle?_eq ha hm, obstacle?_empty] at h
  generalize tb.expand t = u at h
  induction u with
  | all n x body ih => cases why <;> exact ih h
  | arrow n p q ihp ihq =>
    simp only [obstacleWith, Option.or_eq_some_iff] at h
    rcases h with h | ⟨-, h⟩
    · have := ihp h
      cases why <;> simp only [Obstacle.In, Ty.mvars, Ty.skolems, List.mem_append] at this ⊢ <;>
        grind
    · have := ihq h
      cases why <;> simp only [Obstacle.In, Ty.mvars, Ty.skolems, List.mem_append] at this ⊢ <;>
        grind
  | app n f a ihf iha =>
    simp only [obstacleWith, Option.or_eq_some_iff] at h
    rcases h with h | ⟨-, h⟩
    · have := ihf h
      cases why <;> simp only [Obstacle.In, Ty.mvars, Ty.skolems, List.mem_append] at this ⊢ <;>
        grind
    · have := iha h
      cases why <;> simp only [Obstacle.In, Ty.mvars, Ty.skolems, List.mem_append] at this ⊢ <;>
        grind
  | mvar m' =>
    by_cases hmm : m' = m
    · simp only [obstacleWith, hmm, if_true, Option.some.injEq] at h
      subst h
      simp [Obstacle.In, hmm]
    · by_cases hsc : m.scope = m'.scope
      · simp [obstacleWith, hmm, hsc] at h
      · simp only [obstacleWith, hmm, if_false, Table.solution?_empty, Scope.equal_iff, hsc,
          Option.some.injEq] at h
        subst h
        simp [Obstacle.In, hsc]
  | skolem id =>
    by_cases hid : id ∈ m.scope
    · simp [obstacleWith, hid] at h
    · simp only [obstacleWith, Scope.contains_iff, hid, if_false, Option.some.injEq] at h
      subst h
      simp [Obstacle.In, hid]
  | _ => simp [obstacleWith] at h

end

end RankN
