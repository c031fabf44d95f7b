import RankN.Proofs.Reachable
import RankN.Proofs.Termination

/-!
# Solutions are written once

A slot is filled by solving its metavariable, and filled slots are overwritten by pruning. What
pruning writes means the same, so over a whole run a filled slot changes by path shortening only:
whatever operations come after, and whether or not they succeed, what stood in the slot and what
stands in it have the same pruned form.

Main result: `Reachable.solutions_write_once`. It follows from what one operation does
(`Run.Valid.evolves`), because continuing a run is transitive.
-/

namespace RankN

open RankN.Action Relation

/-- One operation leads from `r` to `r'`. -/
def Run.Step (r r' : Run) : Prop := ∃ op : Operation, op.Over r ∧ op.run r = r'

section

variable {P : Ty → Prop} {r r' : Run}

theorem Action.Evolves.after_evolves {ε α : Type} {E : Stop ε → Prop} {x : Action ε α}
    {Q : α → Run → Prop} (h : x.Evolves E r Q) : r.Evolves (x.after r) := by
  unfold Action.after
  cases hx : x r with
  | ok a r' => exact (Ensures.of_ok h hx).1
  | error stop r' => exact (Ensures.of_error h hx).1

/-- **One operation.** However it ends, it leaves a run that continues the one it started from. -/
theorem Run.Valid.evolves (hr : r.Valid P) {op : Operation} (ho : op.Over r) :
    r.Evolves (op.run r) := by
  have hin := hr.inOrder
  have hpassed : ∀ t : Ty, t.Over r → t.Passed r := fun t ht => ht.passed hr
  cases op with
  | newSkolem => exact hin.newSkolem
  | newMVar scope => exact hin.newMVar scope
  | unify a b => exact (unify_evolves hin (hpassed a ho.1) (hpassed b ho.2)).after_evolves
  | solve m t => exact (solve_evolves hin (hpassed t ho.2)).after_evolves
  | subsume scope a b =>
    exact (subsume_evolves hin (hpassed a ho.2.1) (hpassed b ho.2.2)).after_evolves
  | check names scope e t =>
    obtain ⟨hnames, -, hexpr, ht⟩ := ho
    exact ((infer_evolves e).1 names scope t r hin (hnames.mono hpassed) (hexpr.mono hpassed)
      (hpassed t ht)).after_evolves
  | synth names scope e =>
    obtain ⟨hnames, -, hexpr⟩ := ho
    exact ((infer_evolves e).2 names scope r hin (hnames.mono hpassed)
      (hexpr.mono hpassed)).after_evolves
  | collect scope t args =>
    apply Parameters.ensures_takeAll_run
    apply Ensures.mono (takeAll_evolves args hin (hpassed t ho.2))
    · exact fun _ _ h => h.1
    · exact fun _ _ h => h.1
  | prune t => exact hin.prune t

/-- **A whole run.** Any number of operations lead to a run that continues the first one. -/
theorem Run.Valid.evolves_steps (hr : r.Valid Ty.Any) (h : ReflTransGen Run.Step r r') :
    r'.Valid Ty.Any ∧ r.Evolves r' := by
  induction h with
  | refl => exact ⟨hr, .refl hr.inOrder⟩
  | tail _ hstep ih =>
    obtain ⟨hr₁, he₁⟩ := ih
    obtain ⟨op, ho, rfl⟩ := hstep
    exact ⟨hr₁.operation Ty.stable_any ho fun _ _ => trivial, he₁.trans (hr₁.evolves ho)⟩

end

/-- **Solutions are written once.** From a reachable run, let any operations follow, successful or
not. Every metavariable stays at its position with its scope, and no counter falls. A metavariable
that is solved stays solved, and its new slot and its old slot have the same pruned form. -/
theorem Reachable.solutions_write_once {r r' : Run} (h : Reachable r)
    (hsteps : ReflTransGen Run.Step r r') :
    (∀ i m, r.table.mvarAt? i = some m → r'.table.mvarAt? i = some m) ∧
    r.mvars ≤ r'.mvars ∧ r.skolems ≤ r'.skolems ∧
    ∀ m t, r.table.solution? m = some t →
      ∃ t', r'.table.solution? m = some t' ∧ (prune t r').1.plain = (prune t' r').1.plain := by
  obtain ⟨-, he⟩ := h.valid.evolves_steps hsteps
  have ha := he.inOrder.acyclic
  refine ⟨he.mvarAt, he.mvars, he.skolems, fun m t ht => ?_⟩
  obtain ⟨⟨t', ht'⟩, hexp⟩ := he.solved m t ht
  refine ⟨t', ht', ?_⟩
  calc (prune t r').1.plain
      = r'.table.expand t := (prune_spec ha t).plain
    _ = r'.table.expand (.mvar m) := hexp.symm
    _ = r'.table.expand t' := ha.expand_solved ht'
    _ = (prune t' r').1.plain := (prune_spec ha t').plain.symm

/-- With `?0 := ?1` and `?1 := int`, pruning `?0` and failing to make it equal to `bool` leaves `int`
in the slot that held `?1`. Both have the pruned form `int`. -/
theorem solutions_write_once_after_prune :
    let m : MVar := ⟨3, 0, .empty⟩
    let k : MVar := ⟨4, 1, .empty⟩
    let r := (Operation.solve k (.var "int")).run ((Operation.solve m (.mvar k)).run
      ((Operation.newMVar .empty).run ((Operation.newMVar .empty).run {})))
    let r' := (Operation.unify (.mvar m) (.var "bool")).run ((Operation.prune (.mvar m)).run r)
    r.table.solution? m = some (.mvar k) ∧ r'.table.solution? m = some (.var "int") ∧
      ∃ t', r'.table.solution? m = some t' ∧ (prune (.mvar k) r').1.plain = (prune t' r').1.plain := by
  intro m k r r'
  have hreach : Reachable r := by
    have h₀ : Reachable {} := .empty ⟨rfl, rfl, rfl⟩
    have h₁ := h₀.step (.newMVar .empty) (show Scope.Over _ _ by decide)
    have h₂ := h₁.step (.newMVar .empty) (show Scope.Over _ _ by decide)
    have h₃ := h₂.step (.solve m (.mvar k)) (show _ ∧ Ty.Over _ _ by decide)
    exact h₃.step (.solve k (.var "int")) (show _ ∧ Ty.Over _ _ by decide)
  have hsteps : ReflTransGen Run.Step r r' :=
    (ReflTransGen.single ⟨.prune (.mvar m), show Ty.Over _ _ by decide, rfl⟩).tail
      ⟨.unify (.mvar m) (.var "bool"), show Ty.Over _ _ ∧ Ty.Over _ _ by decide, rfl⟩
  have hsol : r.table.solution? m = some (.mvar k) := by decide
  exact ⟨hsol, by decide, (hreach.solutions_write_once hsteps).2.2.2 m (.mvar k) hsol⟩

end RankN
