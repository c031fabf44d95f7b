import RankN.Proofs.Pruning

/-!
# The first obstacle

Before a metavariable is solved, the type is searched for what stands in the way, left to right and
through the solutions on the way. What the search finds can be told from the leaves of the pruned
type.

**Leaves.** A leaf of a type is a part that has no parts. It stands in the way of solving `m` if it
is `m` itself, a metavariable of another scope, or a skolem constant outside the scope of `m`
(`Obstacle.At`). These exclude each other, so an obstacle is a leaf with one reason.

**Order.** Solutions are searched where they are met, so the order of the search is the order of the
leaves in the pruned type, and the first obstacle is the leftmost (`obstacle?_eq_findSome?`).

Main result: `obstacle_leftmost`.
-/

namespace RankN

/-! ## Leaves -/

/-- The leaves of a type, left to right. -/
def Ty.fringe : Ty → List Ty
  | .all _ _ body => body.fringe
  | .arrow _ p q => p.fringe ++ q.fringe
  | .app _ f a => f.fringe ++ a.fringe
  | t => [t]

namespace Obstacle

/-- A leaf that stands in the way of solving `m`, and why. -/
inductive At (m : MVar) : Ty → Obstacle → Prop where
  | itself : At m (.mvar m) .occurs
  | stranger (k : MVar) : ¬ (∀ id, id ∈ k.scope ↔ id ∈ m.scope) → At m (.mvar k) .scopeMismatch
  | outsider (id : Int) : id ∉ m.scope → At m (.skolem id) .skolemEscape

/-- Why a leaf stands in the way of solving `m`, if it does. -/
def at? (m : MVar) : Ty → Option Obstacle
  | .mvar k =>
    if k = m then some .occurs else if k.scope = m.scope then none else some .scopeMismatch
  | .skolem id => if id ∈ m.scope then none else some .skolemEscape
  | _ => none

theorem at?_eq_some {m : MVar} {t : Ty} {why : Obstacle} : at? m t = some why ↔ At m t why := by
  constructor
  · intro h
    cases t with
    | mvar k =>
      rw [at?] at h
      split at h
      · rename_i hk
        cases h
        exact hk ▸ .itself
      · split at h
        · cases h
        · rename_i hs
          cases h
          exact .stranger k fun hmem => hs (Scope.ext_mem hmem)
    | skolem id =>
      rw [at?] at h
      split at h
      · cases h
      · rename_i hid
        cases h
        exact .outsider id hid
    | _ => cases h
  · rintro (_ | ⟨k, hk⟩ | ⟨id, hid⟩)
    · simp [at?]
    · have hs : k.scope ≠ m.scope := fun hs => hk fun id => by rw [hs]
      have hne : k ≠ m := fun h => hs (congrArg MVar.scope h)
      simp [at?, hne, hs]
    · exact if_neg hid

theorem at?_eq_none {m : MVar} {t : Ty} : at? m t = none ↔ ∀ why, ¬ At m t why := by
  simp only [← at?_eq_some, Option.eq_none_iff_forall_ne_some, ne_eq]

end Obstacle

/-! ## Searching -/

section

variable {r : Run} {m : MVar}

/-- Without solutions, the search runs along the leaves. -/
theorem obstacle?_eq_findSome? (m : MVar) (t : Ty) :
    obstacle? {} m t = t.fringe.findSome? (Obstacle.at? m) := by
  rw [obstacle?_empty]
  induction t with
  | all n x body ih => exact ih
  | arrow n p q ihp ihq => rw [obstacleWith, ihp, ihq, Ty.fringe, List.findSome?_append]
  | app n f a ihf iha => rw [obstacleWith, ihf, iha, Ty.fringe, List.findSome?_append]
  | mvar k =>
    simp only [obstacleWith, Ty.fringe, List.findSome?_singleton, Obstacle.at?,
      Table.solution?_empty, Scope.equal_iff, eq_comm (a := m.scope)]
  | skolem id =>
    simp only [obstacleWith, Ty.fringe, List.findSome?_singleton, Obstacle.at?,
      Scope.contains_iff]
  | var | unknown | absent => rfl

/-- The search through the table finds what a search of the pruned type finds. -/
theorem obstacle?_prune (ha : r.table.Acyclic) (hm : r.table.solution? m = none) (t : Ty) :
    obstacle? r.table m t = obstacle? {} m (prune t r).1 := by
  have hplain : (({} : Table).expand (prune t r).1) = (prune t r).1.plain :=
    Table.expand_of_unsolved fun k _ => Table.solution?_empty k
  rw [obstacle?_eq ha hm, ← (prune_spec ha t).plain, ← hplain]
  exact (obstacle?_eq Table.acyclic_empty (Table.solution?_empty m) _).symm

end

/-- **The first obstacle is the leftmost.** In every run with an acyclic table, for every unsolved
metavariable, of this run or of none, and every type: nothing stands in the way exactly if the
pruned type does not contain the metavariable, its skolem constants are all in the scope of the
metavariable, and its metavariables, all of them unsolved, have the same members in their scopes.
Otherwise the reason is that of the leftmost leaf of the pruned type that stands in the way. -/
theorem obstacle_leftmost {r : Run} (ha : r.table.Acyclic) {m : MVar}
    (hm : r.table.solution? m = none) (t : Ty) :
    (obstacle? r.table m t = none ↔
      m ∉ (prune t r).1.mvars ∧ (∀ id ∈ (prune t r).1.skolems, id ∈ m.scope) ∧
      ∀ k ∈ (prune t r).1.mvars,
        r.table.solution? k = none ∧ ∀ id, id ∈ k.scope ↔ id ∈ m.scope) ∧
    ∀ why, obstacle? r.table m t = some why ↔
      ∃ before leaf after, (prune t r).1.fringe = before ++ leaf :: after ∧
        Obstacle.At m leaf why ∧ ∀ l ∈ before, ∀ why', ¬ Obstacle.At m l why' := by
  rw [obstacle?_prune ha hm]
  constructor
  · rw [obstacle?_empty_eq_none]
    refine and_congr_right fun _ => ⟨fun ⟨hscopes, hskolems⟩ => ⟨hskolems, fun k hk => ?_⟩,
      fun ⟨hskolems, hmvars⟩ => ⟨fun k hk => Scope.ext_mem (hmvars k hk).2, hskolems⟩⟩
    exact ⟨unsolved_of_mem_prune ha hk, fun id => by rw [hscopes k hk]⟩
  · intro why
    simp only [obstacle?_eq_findSome?, List.findSome?_eq_some_iff, Obstacle.at?_eq_some,
      Obstacle.at?_eq_none]

/-- Let `?0` and `?1` be of scope `[#0]`, `?2` of scope `[#0, #1]`, and `?1 := #0 → ?2`. In
`?1 (?0 → #5)` every kind of obstacle to solving `?0` occurs, and the first is `?2`, inside the
solution of `?1`. A metavariable of no run that has the number of `?0` and its scope is none. -/
theorem obstacle_leftmost_inside_solution :
    let m : MVar := ⟨3, 0, .ofList [0]⟩
    let k : MVar := ⟨4, 1, .ofList [0]⟩
    let j : MVar := ⟨5, 2, .ofList [1, 0]⟩
    let other : MVar := ⟨6, 0, .ofList [0, 0]⟩
    let tb := ((({} : Table).push m).push k).push j
    let u : Ty := .arrow 7 (.skolem 0) (.mvar j)
    let r : Run := { table := tb.write k u, mvars := 3, stamps := 12 }
    let t : Ty := .app 8 (.mvar k) (.arrow 9 (.mvar m) (.skolem 5))
    let t' : Ty := .all 10 "a" (.arrow 11 (.mvar other) (.skolem 0))
    (prune t r).1.fringe = [.skolem 0, .mvar j, .mvar m, .skolem 5] ∧
      obstacle? r.table m t = some .scopeMismatch ∧
      obstacle? r.table m t' = none := by
  intro m k j other tb u r t t'
  have htb : tb.Acyclic :=
    Table.acyclic_empty.congr fun m => by simp only [tb, Table.solution?_push]
  have ha : r.table.Acyclic := htb.write_of_unsolved (by decide) (by decide)
  have hm : r.table.solution? m = none := by decide
  have hfringe : (prune t r).1.fringe = [.skolem 0, .mvar j, .mvar m, .skolem 5] := by decide
  refine ⟨hfringe, ?_, ?_⟩
  · refine ((obstacle_leftmost ha hm t).2 _).2
      ⟨[.skolem 0], .mvar j, [.mvar m, .skolem 5], hfringe, .stranger j fun h => ?_, fun l hl => ?_⟩
    · exact absurd ((h 1).1 (by decide)) (by decide)
    · rw [List.mem_singleton.1 hl]
      rintro why ⟨⟩
      exact absurd (by decide : (0 : Int) ∈ m.scope) ‹_›
  · refine (obstacle_leftmost ha hm t').1.2 ⟨by decide, by decide, fun k hk => ?_⟩
    have hscope : other.scope = m.scope := by decide
    obtain rfl : k = other := List.mem_singleton.1 hk
    exact ⟨by decide, fun id => by rw [hscope]⟩

end RankN
