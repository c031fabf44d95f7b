import RankN.Proofs.Normalization

/-!
# Substitution commutes with pruning

Substitution reads a type through the table, goes into the solutions it meets, and stops at a
quantifier over the same name without looking at what is below; what it puts in is not pruned.
Pruning its result gives, up to stamps, the pruned type with the pruned replacement put in by
`Ty.replace`, which knows no table.

So a quantified type may be pruned or not before it is opened, and the same for what it is opened
at. The table does not matter either: types with the same pruned forms in two runs are opened alike.

Main result: `prune_subst`.
-/

namespace RankN

namespace Ty

theorem plain_replace (t : Ty) (x : String) (new : Ty) :
    (t.replace x new).plain = t.plain.replace x new.plain := by
  induction t with
  | var y => by_cases hy : y = x <;> simp [plain, hy]
  | all n y body ih => by_cases hy : y = x <;> simp [plain, hy, ih]
  | arrow n p q ihp ihq => simp [plain, ihp, ihq]
  | app n f a ihf iha => simp [plain, ihf, iha]
  | mvar | skolem | unknown | absent => rfl

end Ty

section

variable {r r' : Run}

/-- The pruned form of what substitution returns, read off the table. -/
theorem plain_prune_subst (ha : r.table.Acyclic) (x : String) (new t : Ty) :
    (prune (subst x new t r).1 (subst x new t r).2).1.plain =
      (r.table.expand t).replace x (r.table.expand new) := by
  have htable := (subst_restamped x new t r).table
  rw [plain_prune (htable ▸ ha), htable, expand_subst ha]

/-- Opening types with the same pruned forms, in one run or in two. -/
theorem plain_prune_openAll (ha : r.table.Acyclic) (ha' : r'.table.Acyclic) {n n' : Nat}
    {x x' : String} {body body' new new' : Ty}
    (hall : (prune (.all n x body) r).1.plain = (prune (.all n' x' body') r').1.plain)
    (hnew : (prune new r).1.plain = (prune new' r').1.plain) :
    (prune (openAll x body new r).1 (openAll x body new r).2).1.plain =
      (prune (openAll x' body' new' r').1 (openAll x' body' new' r').2).1.plain := by
  simp only [plain_prune ha, plain_prune ha', Table.expand_all, Ty.all.injEq, true_and] at hall hnew
  obtain ⟨rfl, hbody⟩ := hall
  rw [openAll, openAll, plain_prune_subst ha, plain_prune_subst ha', hbody, hnew]

end

/-- **Substitution commutes with pruning.** In every run with an acyclic table, for every name and
all types: substitution changes no slot, and the pruned form of what it returns is the pruned form
of the type with that of the replacement put for the free occurrences of the name. Hence opening a
quantified type depends on it, and on what it is opened at, through their pruned forms only, even
from one run to another. -/
theorem prune_subst {r : Run} (ha : r.table.Acyclic) (x : String) (new t : Ty) :
    (subst x new t r).2.table = r.table ∧
    (prune (subst x new t r).1 (subst x new t r).2).1.plain =
      ((prune t r).1.replace x (prune new r).1).plain ∧
    ∀ {r' : Run}, r'.table.Acyclic → ∀ (n n' : Nat) (y y' : String) (body body' w w' : Ty),
      (prune (.all n y body) r).1.plain = (prune (.all n' y' body') r').1.plain →
      (prune w r).1.plain = (prune w' r').1.plain →
      (prune (openAll y body w r).1 (openAll y body w r).2).1.plain =
        (prune (openAll y' body' w' r').1 (openAll y' body' w' r').2).1.plain := by
  refine ⟨(subst_restamped x new t r).table, ?_, fun ha' n n' y y' body body' w w' hall hw => ?_⟩
  · rw [plain_prune_subst ha, Ty.plain_replace, plain_prune ha, plain_prune ha]
  · exact plain_prune_openAll ha ha' hall hw

/-- With `?0 := ∀ b, ?1 → a`, `?1 := a ?2` and `?3 := b → ?2`, put `?3` for `a` in
`?0 → ∀ a, ?1`. Under the second quantifier nothing is replaced, and under the first one the `b`
that is put in is captured. Opening `∀ a, ?1` at `?3` gives what opening `∀ a, a ?2` at `b → ?2`
gives in a run without solutions. -/
theorem prune_subst_under_quantifiers :
    let m : MVar := ⟨3, 0, .empty⟩
    let k : MVar := ⟨4, 1, .empty⟩
    let j : MVar := ⟨5, 2, .empty⟩
    let i : MVar := ⟨6, 3, .empty⟩
    let tb := (((({} : Table).push m).push k).push j).push i
    let tb₁ := tb.write m (.all 7 "b" (.arrow 8 (.mvar k) (.var "a")))
    let tb₂ := tb₁.write k (.app 9 (.var "a") (.mvar j))
    let tb₃ := tb₂.write i (.arrow 10 (.var "b") (.mvar j))
    let r : Run := { table := tb₃, mvars := 4, stamps := 13 }
    let t : Ty := .arrow 11 (.mvar m) (.all 12 "a" (.mvar k))
    let w : Ty := .arrow 0 (.var "b") (.mvar j)
    (subst "a" (.mvar i) t r).2.table = r.table ∧
      (prune (subst "a" (.mvar i) t r).1 (subst "a" (.mvar i) t r).2).1.plain =
        .arrow 0 (.all 0 "b" (.arrow 0 (.app 0 w (.mvar j)) w))
          (.all 0 "a" (.app 0 (.var "a") (.mvar j))) ∧
      (prune (openAll "a" (.mvar k) (.mvar i) r).1 (openAll "a" (.mvar k) (.mvar i) r).2).1.plain =
        (prune (openAll "a" (.app 0 (.var "a") (.mvar j)) w {}).1
          (openAll "a" (.app 0 (.var "a") (.mvar j)) w {}).2).1.plain := by
  intro m k j i tb tb₁ tb₂ tb₃ r t w
  have htb : tb.Acyclic :=
    Table.acyclic_empty.congr fun m => by simp only [tb, Table.solution?_push]
  have h₁ : tb₁.Acyclic := htb.write_of_unsolved (by decide) (by decide)
  have h₂ : tb₂.Acyclic := h₁.write_of_unsolved (by decide) (by decide)
  have ha : r.table.Acyclic := h₂.write_of_unsolved (by decide) (by decide)
  obtain ⟨htable, hform, hopen⟩ := prune_subst ha "a" (.mvar i) t
  exact ⟨htable, hform.trans (by decide),
    hopen Table.acyclic_empty 14 15 "a" "a" _ _ _ _ (by decide) (by decide)⟩

end RankN
