import RankN.Proofs.Inference

/-!
# Tables of solutions in reachable runs

`Operation` lists what can be asked of a run from outside: allocate, unify, solve, subsume, check,
synthesize, collect parameters, prune. An operation may succeed or fail, and either way it leaves a
run behind (`Operation.run`). The runs that come about by operations on an empty one, each given
types and scopes of the run it starts from, are `Reachable`.

Main result: `Reachable.solutions_in_order`. However the operations went, metavariables are numbered
by their positions, no metavariable leads back to itself, and the pruned solution of a metavariable
mentions only skolem constants of its scope and unsolved metavariables with the same scope.
-/

namespace RankN

open RankN.Action Relation

/-- The run that an action leaves behind, however it ends. -/
def Action.after {ε α : Type} (x : Action ε α) (r : Run) : Run :=
  match x r with
  | .ok _ r' => r'
  | .error _ r' => r'

/-- An action that succeeds does so with the run that it leaves behind. -/
theorem Action.eq_ok_after {ε : Type} {x : Action ε Unit} {r : Run}
    (h : (x r matches .ok ..) = true) : x r = .ok () (x.after r) := by
  unfold Action.after
  cases hx : x r with
  | ok u r' => rfl
  | error stop r' =>
    rw [hx] at h
    cases h

/-- An action that fails does not succeed with any run. -/
theorem Action.not_ok {ε : Type} {x : Action ε Unit} {r : Run}
    (h : (x r matches .ok ..) = false) : ¬ ∃ r', x r = .ok () r' := by
  rintro ⟨r', hx⟩
  rw [hx] at h
  cases h

theorem Action.Keeps.valid_after {ε α : Type} {P : Ty → Prop} {x : Action ε α} {r : Run}
    {Q : α → Run → Prop} (h : x.Keeps P r Q) : (x.after r).Valid P := by
  unfold Action.after
  cases hx : x r with
  | ok a r' => exact (Ensures.of_ok h hx).1
  | error stop r' => exact Ensures.of_error h hx

/-- The types of all names, bound and declared. -/
def Names.types (names : Names) : List Ty := (names.locals ++ names.env.flatten).map (·.2)

/-- What can be asked of a run. -/
inductive Operation where
  | newSkolem
  | newMVar (scope : Scope)
  | unify (a b : Ty)
  | solve (m : MVar) (t : Ty)
  | subsume (scope : Scope) (a b : Ty)
  | check (names : Names) (scope : Scope) (e : Expr) (t : Ty)
  | synth (names : Names) (scope : Scope) (e : Expr)
  | collect (scope : Scope) (t : Ty) (args : List Expr)
  | prune (t : Ty)

namespace Operation

/-- The run that an operation leaves behind. -/
def run : Operation → Run → Run
  | .newSkolem, r => (Run.newSkolem r).2
  | .newMVar scope, r => (Run.newMVar scope r).2
  | .unify a b, r => (RankN.unify a b).after r
  | .solve m t, r => (RankN.solve m t).after r
  | .subsume scope a b, r => (RankN.subsume scope a b).after r
  | .check names scope e t, r => (RankN.check names scope e t).after r
  | .synth names scope e, r => (RankN.synth names scope e).after r
  | .collect scope t args, r => (Parameters.take scope t args r).2
  | .prune t, r => (RankN.prune t r).2

/-- The operation is given types, metavariables and scopes of the run only. -/
def Over (r : Run) : Operation → Prop
  | .newSkolem => True
  | .newMVar scope => scope.Over r
  | .unify a b => a.Over r ∧ b.Over r
  | .solve m t => r.table.owns m ∧ t.Over r
  | .subsume scope a b => scope.Over r ∧ a.Over r ∧ b.Over r
  | .check names scope e t =>
    names.Every (·.Over r) ∧ scope.Over r ∧ e.Every (·.Over r) ∧ t.Over r
  | .synth names scope e => names.Every (·.Over r) ∧ scope.Over r ∧ e.Every (·.Over r)
  | .collect scope t _ => scope.Over r ∧ t.Over r
  | .prune t => t.Over r

/-- The types that the operation is given. -/
def types : Operation → List Ty
  | .newSkolem | .newMVar _ => []
  | .unify a b | .subsume _ a b => [a, b]
  | .solve _ t | .collect _ t _ | .prune t => [t]
  | .check names _ e t => t :: (names.types ++ e.annotations)
  | .synth names _ e => names.types ++ e.annotations

end Operation

/-- A run that operations on an empty one lead to. -/
inductive Reachable : Run → Prop
  | empty {r : Run} : r.Empty → Reachable r
  | step {r : Run} (op : Operation) : Reachable r → op.Over r → Reachable (op.run r)

/-! ## What an operation keeps -/

section

variable {P : Ty → Prop} {r : Run}

theorem Names.every_mem_types (names : Names) : names.Every (· ∈ names.types) := by
  constructor
  · intro x t hx
    obtain ⟨l₁, l₂, hl, -⟩ := List.lookup_eq_some_iff.1 hx
    simp [Names.types, hl]
  · apply Env.every_of_declared
    intro layer hl d hd
    exact List.mem_map_of_mem (List.mem_append_right _ (List.mem_flatten_of_mem hl hd))

/-- What a call of `check` or `synth` is given, from what is known of the types in it. -/
theorem given_of_types {names : Names} {scope : Scope} {e : Expr} (hn : names.Every (·.Over r))
    (hs : scope.Over r) (he : e.Every (·.Over r))
    (h : ∀ t ∈ names.types ++ e.annotations, P (r.table.expand t)) : Given P r names scope e := by
  have hnames := names.every_mem_types
  refine ⟨hs, ⟨fun x t ht => ?_, fun x t ht => ?_⟩, fun t ht => ?_⟩
  · exact ⟨hn.locals x t ht, h t (List.mem_append_left _ (hnames.locals x t ht))⟩
  · exact ⟨hn.env x t ht, h t (List.mem_append_left _ (hnames.env x t ht))⟩
  · exact ⟨he t ht, h t (List.mem_append_right _ ht)⟩

/-- Every operation on types of a valid run leaves a valid run. -/
theorem Run.Valid.operation (hP : Ty.Stable P) (hr : r.Valid P) {op : Operation} (ho : op.Over r)
    (h : ∀ t ∈ op.types, P (r.table.expand t)) : (op.run r).Valid P := by
  cases op with
  | newSkolem => exact hr.newSkolem
  | newMVar scope => exact hr.newMVar ho
  | unify a b =>
    exact (unify_keeps hP hr ⟨ho.1, h a (by simp [Operation.types])⟩
      ⟨ho.2, h b (by simp [Operation.types])⟩).valid_after
  | solve m t => exact (solve_keeps hP hr ho.1 ⟨ho.2, h t (by simp [Operation.types])⟩).valid_after
  | subsume scope a b =>
    exact (subsume_keeps hP hr ho.1 ⟨ho.2.1, h a (by simp [Operation.types])⟩
      ⟨ho.2.2, h b (by simp [Operation.types])⟩).valid_after
  | check names scope e t =>
    obtain ⟨hn, hs, he, ht⟩ := ho
    have hgiven := given_of_types hn hs he fun u hu => h u (List.mem_cons_of_mem t hu)
    exact (check_keeps hP hr hgiven ⟨ht, h t List.mem_cons_self⟩).valid_after
  | synth names scope e =>
    obtain ⟨hn, hs, he⟩ := ho
    exact (synth_keeps hP hr (given_of_types hn hs he h)).valid_after
  | collect scope t args =>
    refine Parameters.ensures_takeAll_run ?_
    exact Ensures.mono (takeAll_keeps hP args hr ho.1 ⟨ho.2, h t (by simp [Operation.types])⟩)
      (fun _ _ h => h.1) fun _ _ h => h
  | prune t => exact hr.prune t

theorem Reachable.valid (h : Reachable r) : r.Valid Ty.Any := by
  induction h with
  | empty h => exact h.valid
  | step op _ ho ih => exact ih.operation Ty.stable_any ho fun _ _ => trivial

end

/-! ## The table -/

/-- **Reachable tables are in order.** -/
theorem Reachable.solutions_in_order {r : Run} (h : Reachable r) :
    r.mvars = r.table.size ∧
    (∀ i < r.table.size, ∃ m, r.table.mvarAt? i = some m ∧ m.id = i) ∧
    (∀ m, ¬ TransGen r.table.Points m m) ∧
    ∀ m t, r.table.solution? m = some t →
      (∀ id ∈ (prune t r).1.skolems, id ∈ m.scope) ∧
      ∀ k ∈ (prune t r).1.mvars,
        r.table.owns k ∧ r.table.solution? k = none ∧ k.scope = m.scope := by
  have hr := h.valid
  refine ⟨hr.count, fun i hi => ?_, hr.acyclic, fun m t ht => ?_⟩
  · have hm : r.table.mvarAt? i = some (r.table.slots[i].mvar) := by
      rw [Table.mvarAt?, Array.getElem?_eq_getElem hi, Option.map_some]
    exact ⟨_, hm, hr.ids i _ hm⟩
  · -- Pruning computes the expansion, which fits the scope and mentions only what is allocated.
    have hfits : (prune t r).1.Fits m.scope := (leaves_prune hr.acyclic).2 (hr.fits m t ht)
    have hover := (hr.solutions m t ht).isOver.prune hr
    exact ⟨hfits.2, fun k hk => ⟨hover.1 k hk, unsolved_of_mem_prune hr.acyclic hk, hfits.1 k hk⟩⟩

/-- In a run with `?0` and `?1` of the scope `[#0]`, unifying `?0` with `#0 → ?1` solves `?0`, and
the solution mentions the constant of the scope and a metavariable of the same scope. -/
theorem solutions_in_order_after_unify :
    let scope := Scope.ofList [0]
    let m : MVar := ⟨3, 0, scope⟩
    let k : MVar := ⟨4, 1, scope⟩
    let t : Ty := .arrow 0 (.skolem 0) (.mvar k)
    let r := (Operation.unify (.mvar m) t).run
      ((Operation.newMVar scope).run ((Operation.newMVar scope).run (Operation.newSkolem.run {})))
    r.table.solution? m = some t ∧ r.mvars = r.table.size ∧ ¬ TransGen r.table.Points m m ∧
      (∀ id ∈ (prune t r).1.skolems, id ∈ scope) ∧
      ∀ k ∈ (prune t r).1.mvars, r.table.owns k ∧ r.table.solution? k = none ∧ k.scope = scope := by
  intro scope m k t r
  have hreach : Reachable r := by
    have h₀ : Reachable {} := .empty ⟨rfl, rfl, rfl⟩
    have h₁ := h₀.step .newSkolem trivial
    have h₂ := h₁.step (.newMVar scope) (show Scope.Over _ scope by decide)
    have h₃ := h₂.step (.newMVar scope) (show Scope.Over _ scope by decide)
    exact h₃.step (.unify (.mvar m) t) (show Ty.Over _ _ ∧ Ty.Over _ _ by decide)
  have hsol : r.table.solution? m = some t := by decide
  obtain ⟨hcount, -, hacyclic, hfits⟩ := hreach.solutions_in_order
  exact ⟨hsol, hcount, hacyclic m, hfits m t hsol⟩

end RankN
