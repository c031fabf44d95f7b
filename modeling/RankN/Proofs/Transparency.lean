import RankN.Proofs.Outline

/-!
# Solved metavariables are transparent

Pruning a type puts solutions for metavariables and writes them into the table. It should make no
difference whether this is done before a call of the solver or not.

**Unification, solving, parameters.** These cannot tell a type from its pruned form. What they do can
be read off what types expand (`unify_equates`, `solveWithin_concludes`) or off outlines
(`take_becomes`), which pruning leaves alone. Only the direction in which unification solves one
unsolved metavariable by another may change, so its tables agree up to an exchange
(`Reachable.alike_pruned`).

**Subsumption.** It opens the quantifiers that it sees, and it does not see a quantifier behind a
solved metavariable (`subsume_of_hidden_quantifier`). Where no quantifier is hidden, opening can be
read off the outlines as well (`opening`), and what it ends with is unified.

Main results: `Reachable.alike_pruned` and `Reachable.subsume_pruned_iff`.
-/

namespace RankN

open RankN.Action

/-! ## Runs with shortened tables -/

/-- The run `s` is `r` with another way to write down what metavariables stand for. -/
structure Run.Shortened (r s : Run) : Prop where
  valid : s.Valid Ty.Any
  skolems : s.skolems = r.skolems
  shortens : r.table.Shortens s.table
  expand : ∀ t, s.table.expand t = r.table.expand t

namespace Run.Shortened

variable {r s s' : Run} {t : Ty}

theorem trans (h : r.Shortened s) (h' : s.Shortened s') : r.Shortened s' where
  valid := h'.valid
  skolems := h'.skolems.trans h.skolems
  shortens := h.shortens.trans h'.shortens
  expand t := (h'.expand t).trans (h.expand t)

theorem isOver (h : r.Shortened s) (ht : t.Over r) : t.Over s := by
  refine ht.mono (fun m hm => (h.shortens.owns m).2 hm) fun id hid => ?_
  unfold Run.Allocated at *
  rwa [h.skolems]

theorem outlines (h : r.Shortened s) : s.table.outlines = r.table.outlines :=
  (Run.Becomes.of_shortens h.valid.tidy h.shortens.mvarAt h.expand).outlines

end Run.Shortened

/-- The pruned form of a type of a run, and the run after pruning. -/
structure Run.PrunedTo (r : Run) (t t' : Ty) (s : Run) : Prop extends r.Shortened s where
  isOver' : t'.Over s
  expand' : s.table.expand t' = r.table.expand t
  unsolved : ∀ m ∈ t'.mvars, s.table.solution? m = none

section

variable {r s s' : Run} {t t' u : Ty}

theorem Run.shortened_prune (hr : r.Valid Ty.Any) (t : Ty) : r.Shortened (prune t r).2 where
  valid := hr.prune t
  skolems := by rw [(prune_spec hr.acyclic t).frame]
  shortens := (prune_spec hr.acyclic t).shortens
  expand := expand_prune hr.acyclic t

theorem Run.prunedTo_prune (hr : r.Valid Ty.Any) (ht : t.Over r) :
    r.PrunedTo t (prune t r).1 (prune t r).2 where
  toShortened := shortened_prune hr t
  isOver' := (shortened_prune hr t).isOver (ht.prune hr)
  expand' := (expand_prune hr.acyclic t _).trans (expand_pruned hr.acyclic t)
  unsolved m hm := ((prune_spec hr.acyclic t).shortens.unsolved m).2
    (unsolved_of_mem_prune hr.acyclic hm)

/-- Pruning something else later makes no difference. -/
theorem Run.PrunedTo.later (h : r.PrunedTo t t' s) (hs : s.Shortened s') : r.PrunedTo t t' s' where
  toShortened := h.toShortened.trans hs
  isOver' := hs.isOver h.isOver'
  expand' := (hs.expand t').trans h.expand'
  unsolved m hm := (hs.shortens.unsolved m).2 (h.unsolved m hm)

/-- Pruning something else before makes no difference. -/
theorem Run.Shortened.prunedTo (h : r.Shortened s) (h' : s.PrunedTo t t' s') :
    r.PrunedTo t t' s' where
  toShortened := h.trans h'.toShortened
  isOver' := h'.isOver'
  expand' := h'.expand'.trans (h.expand t)
  unsolved := h'.unsolved

/-- Two types are pruned one after the other. -/
theorem Run.prunedTo_both (hr : r.Valid Ty.Any) {a b : Ty} (ha : a.Over r) (hb : b.Over r) :
    r.PrunedTo a (prune a r).1 (prune b (prune a r).2).2 ∧
      r.PrunedTo b (prune b (prune a r).2).1 (prune b (prune a r).2).2 := by
  have h₁ := prunedTo_prune hr ha
  have h₂ := prunedTo_prune h₁.valid (h₁.toShortened.isOver hb)
  exact ⟨h₁.later h₂.toShortened, h₁.toShortened.prunedTo h₂⟩

end

/-! ## What is compared -/

/-- The runs give every type the same pruned form. -/
def Run.SameForms (r s : Run) : Prop := ∀ t, (prune t s).1.plain = (prune t r).1.plain

/-- The pruned forms of all metavariables, in the order of their allocation, without the stamps of
nodes and metavariables. -/
def Run.forms (r : Run) : List Ty :=
  r.table.mvarList.map fun m => (prune (.mvar m) r).1.plain.bare

/-- The same parameters were taken, and the same type is left, or both calls fail with errors of one
kind; all of it read through the tables, which give all metavariables the same pruned forms. -/
structure Parameters.EndAlike {args : List Expr} (x y : Parameters args × Run) : Prop where
  types : x.1.types.map (fun p => (prune p x.2).1.plain.bare) =
    y.1.types.map fun p => (prune p y.2).1.plain.bare
  result : match x.1.result, y.1.result with
    | .ok t, .ok u => (prune t x.2).1.plain.bare = (prune u y.2).1.plain.bare
    | .error (.error why), .error (.error why') => why.kind = why'.kind
    | _, _ => False
  forms : x.2.forms = y.2.forms

section

variable {r s : Run} {t u : Ty}

theorem Run.SameForms.of_expand (hr : r.Valid Ty.Any) (hs : s.Valid Ty.Any)
    (h : ∀ t, s.table.expand t = r.table.expand t) : r.SameForms s := by
  intro t
  rw [plain_prune hs.acyclic, plain_prune hr.acyclic, h]

/-- The pruned form of a type is its outline. -/
theorem bare_prune (hr : r.Tidy) (t : Ty) : (prune t r).1.plain.bare = r.table.outline t := by
  rw [plain_prune hr.acyclic, Table.outline]

theorem Run.Tidy.forms_eq (hr : r.Tidy) : r.forms = r.table.outlines.map (·.2) := by
  rw [Run.forms, Table.outlines, List.map_map]
  exact List.map_congr_left fun m _ => bare_prune hr (.mvar m)

theorem map_bare_prune (hr : r.Tidy) (ts : List Ty) :
    ts.map (fun p => (prune p r).1.plain.bare) = ts.map r.table.outline :=
  List.map_congr_left fun p _ => bare_prune hr p

/-- Parameters that are described alike are taken alike. -/
theorem Taking.Describes.endAlike {k : Taking} {args : List Expr} {x y : Parameters args × Run}
    (hx : k.Describes r x) (hy : k.Describes s y) : Parameters.EndAlike x y := by
  have htx := hx.becomes.tidy
  have hty := hy.becomes.tidy
  refine ⟨?_, ?_, ?_⟩
  · rw [map_bare_prune htx, map_bare_prune hty, hx.types, hy.types]
  · have hrx := hx.rest
    have hry := hy.rest
    generalize x.1.result = p at hrx ⊢
    generalize y.1.result = q at hry ⊢
    generalize k.rest = o at hrx hry
    cases hrx with
    | rest ht =>
      cases hry with
      | rest hu =>
        show (prune _ x.2).1.plain.bare = (prune _ y.2).1.plain.bare
        rw [bare_prune htx, bare_prune hty, ht, hu]
    | nothing hwhy =>
      cases hry with
      | nothing hwhy' => exact hwhy.trans hwhy'.symm
  · rw [htx.forms_eq, hty.forms_eq, hx.becomes.outlines, hy.becomes.outlines]

end

/-! ## Unification, solving, parameters -/

section

variable {r s : Run} {a b t a' b' t' : Ty} {m : MVar}

/-- Unifying types or their pruned forms ends alike. -/
theorem unify_endAlike_pruned (hr : r.Valid Ty.Any) (ha : a.Over r) (hb : b.Over r)
    (ha' : r.PrunedTo a a' s) (hb' : r.PrunedTo b b' s) :
    (unify a b).EndAlike r (unify a' b') s (fun _ r' _ s' => r'.SameUpTo r.Unsolved s')
      (Run.SameUpTo r.Unsolved) := by
  have hU : ∀ m, r.Unsolved m → s.table.owns m := fun m hm => (ha'.shortens.owns m).2 hm.1
  have hy := unify_equates ha'.valid hU ha'.isOver' hb'.isOver'
  rw [ha'.expand', hb'.expand'] at hy
  refine (unify_equates hr (fun _ hm => hm.1) ha hb).endAlike hy
    (unify_keeps Ty.stable_any hr ⟨ha, trivial⟩ ⟨hb, trivial⟩)
    (unify_keeps Ty.stable_any ha'.valid ⟨ha'.isOver', trivial⟩ ⟨hb'.isOver', trivial⟩)
    (unify_finishes hr.acyclic a b) (unify_finishes ha'.valid.acyclic a' b') ha'.expand ?_ ?_
  · exact (ha.leaves_expand hr).mono (fun _ h => h) fun _ _ => trivial
  · exact (hb.leaves_expand hr).mono (fun _ h => h) fun _ _ => trivial

theorem solve_concludes (hr : r.Valid Ty.Any) (ho : r.table.owns m)
    (hm : r.table.solution? m = none) (ht : t.Over r) :
    (solve m t).Concludes r fun v r' => r'.Valid Ty.Any ∧ v = (settling m (r.table.expand t)).2 ∧
      r.table.Fills (settling m (r.table.expand t)).1 r'.table := by
  refine Concludes.valid ?_ (solve_keeps Ty.stable_any hr ho ⟨ht, trivial⟩)
  exact ensures_bind.2 (ensures_get.2 (solveWithin_concludes _ t r hr ho hm))

/-- Solving a metavariable by a type or by its pruned form ends alike. -/
theorem solve_endAlike_pruned (hr : r.Valid Ty.Any) (ho : r.table.owns m)
    (hm : r.table.solution? m = none) (ht : t.Over r) (ht' : r.PrunedTo t t' s) :
    (solve m t).EndAlike r (solve m t') s (fun _ r' _ s' => r'.SameForms s') Run.SameForms := by
  have hy := solve_concludes ht'.valid ((ht'.shortens.owns m).2 ho)
    ((ht'.shortens.unsolved m).2 hm) ht'.isOver'
  rw [ht'.expand'] at hy
  refine (solve_concludes hr ho hm ht).endAlike hy (solve_finishes hr.acyclic m t)
    (solve_finishes ht'.valid.acyclic m t') fun v v' r' s' h h' => ?_
  obtain ⟨hr', hv, hfills⟩ := h
  obtain ⟨hs', hv', hfills'⟩ := h'
  refine ⟨hv'.trans hv.symm, .of_expand hr' hs' fun u => ?_⟩
  rw [hfills' u, hfills u, ht'.expand]

/-- Taking parameters off a type or off its pruned form ends alike. -/
theorem take_endAlike_pruned (hr : r.Valid Ty.Any) (ht : t.Over r) (ht' : r.PrunedTo t t' s)
    (scope : Scope) (args : List Expr) :
    Parameters.EndAlike (Parameters.take scope t args r) (Parameters.take scope t' args s) := by
  have hy := take_becomes scope args ht'.valid.tidy ht'.isOver'.owned
  have houtline : s.table.outline t' = r.table.outline t := congrArg Ty.bare ht'.expand'
  rw [houtline, ht'.toShortened.outlines] at hy
  exact (take_becomes scope args hr.tidy ht.owned).endAlike hy

end

/-- **A type and its pruned form are alike** to unification, to solving and to taking parameters. In
every reachable run, for all types of the run, every unsolved metavariable `m`, every scope and all
arguments: the call and the call on pruned types both succeed, or both fail with errors of one kind.
Either way the runs they leave give every type the same pruned form, after unification up to an
exchange of metavariables of equal scope that were unsolved before. Taking parameters allocates
metavariables, which are compared by their positions; the parameters and the type that is left have
the same pruned forms, too. -/
theorem Reachable.alike_pruned {r : Run} (hr : Reachable r) {a b t : Ty} (ha : a.Over r)
    (hb : b.Over r) (ht : t.Over r) (scope : Scope) (args : List Expr) :
    (unify a b).EndAlike r
        (do
          let a ← prune a
          let b ← prune b
          unify a b : Solve Unit) r
        (fun _ r' _ s' => r'.SameUpTo r.Unsolved s') (Run.SameUpTo r.Unsolved) ∧
      (∀ m, r.table.owns m → r.table.solution? m = none →
        (solve m t).EndAlike r
          (do
            let t ← prune t
            solve m t : Solve Unit) r
          (fun _ r' _ s' => r'.SameForms s') Run.SameForms) ∧
      Parameters.EndAlike (Parameters.take scope t args r)
        ((do
          let t ← prune t
          Parameters.take scope t args : StateM Run (Parameters args)) r) := by
  have hv := hr.valid
  obtain ⟨ha', hb'⟩ := Run.prunedTo_both hv ha hb
  have ht' := Run.prunedTo_prune hv ht
  refine ⟨?_, fun m ho hm => ?_, take_endAlike_pruned hv ht ht' scope args⟩
  · exact endAlike_lift_bind.2 (endAlike_lift_bind.2 (unify_endAlike_pruned hv ha hb ha' hb'))
  · exact endAlike_lift_bind.2 (solve_endAlike_pruned hv ho hm ht ht')

/-- With `?2` solved by `?1 -> Int`, unifying `?0 -> Int` with `?2` solves `?1` by `?0`, and unifying
the pruned types solves `?0` by `?1`. Solving `?3` by `?2` and taking two parameters off `?2`, of which
there is one, is the same on the pruned type. -/
theorem alike_pruned_of_solved :
    let m : MVar := ⟨3, 0, .empty⟩
    let k : MVar := ⟨4, 1, .empty⟩
    let j : MVar := ⟨5, 2, .empty⟩
    let i : MVar := ⟨6, 3, .empty⟩
    let a : Ty := .arrow 0 (.mvar m) (.var "Int")
    let b : Ty := .arrow 0 (.mvar k) (.var "Int")
    let r := (Operation.solve j b).run ((Operation.newMVar .empty).run ((Operation.newMVar .empty).run
      ((Operation.newMVar .empty).run ((Operation.newMVar .empty).run {}))))
    let x := unify a (.mvar j)
    let y : Solve Unit := do
      let a ← prune a
      let b ← prune (.mvar j)
      unify a b
    x r = .ok () (x.after r) ∧ y r = .ok () (y.after r) ∧
      (x.after r).SameUpTo r.Unsolved (y.after r) ∧
      (solve i (.mvar j)).EndAlike r
        (do
          let t ← prune (.mvar j)
          solve i t : Solve Unit) r
        (fun _ r' _ s' => r'.SameForms s') Run.SameForms ∧
      Parameters.EndAlike (Parameters.take .empty (.mvar j) [.var "x", .var "y"] r)
        ((do
          let t ← prune (.mvar j)
          Parameters.take .empty t [.var "x", .var "y"] : StateM Run (Parameters _)) r) := by
  intro m k j i a b r x y
  have hreach : Reachable r := by
    have h₀ : Reachable {} := .empty ⟨rfl, rfl, rfl⟩
    have h₁ := h₀.step (.newMVar .empty) (show Scope.Over _ _ by decide)
    have h₂ := h₁.step (.newMVar .empty) (show Scope.Over _ _ by decide)
    have h₃ := h₂.step (.newMVar .empty) (show Scope.Over _ _ by decide)
    have h₄ := h₃.step (.newMVar .empty) (show Scope.Over _ _ by decide)
    exact h₄.step (.solve j b) ⟨by decide, by decide⟩
  have hover : a.Over r ∧ (Ty.mvar j).Over r := by decide +kernel
  have hfree : r.table.owns i ∧ r.table.solution? i = none := by decide +kernel
  have hx : x r = .ok () (x.after r) := Action.eq_ok_after (by decide +kernel)
  have hy : y r = .ok () (y.after r) := Action.eq_ok_after (by decide +kernel)
  clear_value r
  obtain ⟨hunify, hsolve, htake⟩ := hreach.alike_pruned hover.1 hover.2 hover.2 .empty
    [.var "x", .var "y"]
  exact ⟨hx, hy, hunify.of_ok hx hy, hsolve i hfree.1 hfree.2, htake⟩

/-- With `?2` solved by `?1 -> Int`, unifying `?0 -> Int` with `?2` leaves `?0` unsolved, but unifying
the pruned types solves it by `?1`. -/
theorem unify_direction_of_pruned :
    let m : MVar := ⟨3, 0, .empty⟩
    let k : MVar := ⟨4, 1, .empty⟩
    let j : MVar := ⟨5, 2, .empty⟩
    let a : Ty := .arrow 0 (.mvar m) (.var "Int")
    let b : Ty := .arrow 0 (.mvar k) (.var "Int")
    let r := (Operation.solve j b).run ((Operation.newMVar .empty).run ((Operation.newMVar .empty).run
      ((Operation.newMVar .empty).run {})))
    let x := unify a (.mvar j)
    let y : Solve Unit := do
      let a ← prune a
      let b ← prune (.mvar j)
      unify a b
    x r = .ok () (x.after r) ∧ y r = .ok () (y.after r) ∧
      (prune (.mvar m) (x.after r)).1 = .mvar m ∧ (prune (.mvar m) (y.after r)).1 = .mvar k ∧
      ¬ (x.after r).SameForms (y.after r) := by
  intro m k j a b r x y
  have hx : x r = .ok () (x.after r) := Action.eq_ok_after (by decide +kernel)
  have hy : y r = .ok () (y.after r) := Action.eq_ok_after (by decide +kernel)
  have hm : (prune (.mvar m) (x.after r)).1 = .mvar m ∧
      (prune (.mvar m) (y.after r)).1 = .mvar k := by decide +kernel
  refine ⟨hx, hy, hm.1, hm.2, fun h => ?_⟩
  have hsame := h (.mvar m)
  rw [hm.1, hm.2] at hsame
  exact absurd hsame (by decide)

/-! ## Subsumption -/

/-- The type begins with a quantifier. -/
def Ty.Quantified : Ty → Prop
  | .all .. => True
  | _ => False

instance : DecidablePred Ty.Quantified
  | .all .. => .isTrue trivial
  | .var _ | .arrow .. | .app .. | .mvar _ | .skolem _ | .unknown .. | .absent => .isFalse id

/-- If the type stands for one that begins with a quantifier, the quantifier can be seen. -/
def Table.Shows (tb : Table) (t : Ty) : Prop := (tb.expand t).Quantified → t.Quantified

section

variable {tb tb' : Table} {r : Run} {t u : Ty} {x : String} {new : Ty}

theorem Ty.ne_all (h : ¬ t.Quantified) (k : Nat) (x : String) (body : Ty) : t ≠ .all k x body := by
  intro heq
  subst heq
  exact h trivial

theorem Ty.Quantified.exists_all (h : t.Quantified) : ∃ k x body, t = .all k x body := by
  cases t with
  | all k x body => exact ⟨k, x, body, rfl⟩
  | _ => exact h.elim

theorem Ty.quantified_bare : t.bare.Quantified ↔ t.Quantified := by cases t <;> rfl

theorem Ty.quantified_plain : t.plain.Quantified ↔ t.Quantified := by cases t <;> rfl

/-- What can be seen of a type can be seen of its outline, and nothing else. -/
theorem Table.Shows.outline (h : tb.Shows t) (ht : ¬ t.Quantified) : ¬ (tb.outline t).Quantified :=
  fun hq => ht (h (Ty.quantified_bare.1 hq))

/-- Only a solved metavariable hides a quantifier. -/
theorem Table.shows_of_unsolved (h : ∀ m, t = .mvar m → tb.solution? m = none) : tb.Shows t := by
  intro hq
  cases t with
  | mvar m => rwa [Table.expand_unsolved (h m rfl)] at hq
  | all k x body => trivial
  | _ => exact hq

theorem Ty.Resolved.shows (h : t.Resolved tb) : tb.Shows t := by
  refine Table.shows_of_unsolved fun m hm => ?_
  subst hm
  exact h

/-- Opening a quantifier leaves nothing hidden. -/
theorem Run.Valid.shows_opened (hr : r.Valid Ty.Any) (x : String) {body : Ty}
    (hnew : new.Resolved r.table) : (openAll x body new r).2.table.Shows (openAll x body new r).1 := by
  have hagrees : r.Agrees (openAll x body new r).2 := (subst_restamped x new body r).agrees
  rw [hagrees.table]
  exact (resolved_subst hr.acyclic x hnew body).shows

end

/-- What opening quantifiers comes to: the outlines, and the two types that are left. -/
structure Opening where
  outlines : Outlines
  left : Ty
  right : Ty

/-- Opening the quantifiers of two outlined types, those on the right first. -/
def opening (scope : Scope) (c : Nat) (l : Outlines) : Ty → Ty → Opening
  | t, .all _ x u => opening (scope.insert c) (c + 1) l t (u.replace x (.skolem c))
  | .all _ x t, u => opening scope c (l.add scope) (t.replace x (.mvar (l.next scope))) u
  | t, u => ⟨l, t, u⟩
termination_by t u => t.size + u.size
decreasing_by
  · rw [Ty.size_replace rfl]
    exact Nat.lt_succ_self _
  · rw [Ty.size_replace rfl, Nat.add_lt_add_iff_right]
    exact Nat.lt_succ_self _

section

variable {scope : Scope} {c : Nat} {l : Outlines} {t u : Ty}

theorem opening_right (k : Nat) (x : String) :
    opening scope c l t (.all k x u) =
      opening (scope.insert c) (c + 1) l t (u.replace x (.skolem c)) := by
  rw [opening]

theorem opening_left (k : Nat) (x : String) (hu : ¬ u.Quantified) :
    opening scope c l (.all k x t) u =
      opening scope c (l.add scope) (t.replace x (.mvar (l.next scope))) u := by
  rw [opening]
  exact Ty.ne_all hu

theorem opening_base (ht : ¬ t.Quantified) (hu : ¬ u.Quantified) :
    opening scope c l t u = ⟨l, t, u⟩ := by
  rw [opening]
  · exact Ty.ne_all ht
  · exact Ty.ne_all hu

end

/-- Making what is left equal ends with an error of kind `v`, or without one. -/
def Opening.Ends (o : Opening) (v : Option TypeError.Kind) : Prop :=
  ∃ (r : Run) (a b : Ty) (σ : MVar → Ty), r.Valid Ty.Any ∧ a.Over r ∧ b.Over r ∧
    o = ⟨r.table.outlines, r.table.outline a, r.table.outline b⟩ ∧
    Equating (r.table.owns ·) (r.table.expand a) (r.table.expand b) σ v

/-- The metavariable of the table with the same number. -/
def Table.seat (tb : Table) (m : MVar) : MVar := (tb.mvarAt? m.id.toNat).getD m

section

variable {tb : Table} {r s : Run} {t u : Ty} {m k : MVar}

theorem Table.seat_bare (h : tb.owns m) : tb.seat m.bare = m := by
  have hat : tb.mvarAt? m.bare.id.toNat = some m := Table.owns_iff_mvarAt?.1 h
  rw [Table.seat, hat]
  rfl

/-- A type of the table can be read off its bare form. -/
theorem Ty.Owned.relabel_seat (h : t.Owned tb) : t.bare.relabel tb.seat id = t := by
  rw [bare, relabel_relabel]
  exact (relabel_congr (h.mono (fun m hm => Table.seat_bare hm) fun _ _ => rfl)).trans t.relabel_id

/-- Outlined alike, two tables have the same metavariables, but for their stamps. -/
theorem Table.exists_bare (hs : s.Tidy) (h : s.table.outlines = r.table.outlines)
    (hm : r.table.owns m) : ∃ k, s.table.owns k ∧ k.bare = m.bare := by
  have hmem : m ∈ r.table.mvarList := by
    refine List.mem_iff_getElem?.2 ⟨m.id.toNat, ?_⟩
    simpa [Table.mvarList, Table.mvarAt?] using Table.owns_iff_mvarAt?.1 hm
  have hout : (m.bare, r.table.outline (.mvar m)) ∈ s.table.outlines := by
    rw [h]
    exact List.mem_map_of_mem hmem
  obtain ⟨k, hk, heq⟩ := List.mem_map.1 hout
  exact ⟨k, hs.owns_of_mem hk, congrArg Prod.fst heq⟩

theorem Run.Tidy.faithful_seat (hs : s.Tidy) (h : s.table.outlines = r.table.outlines) :
    Faithful (s.table.seat ∘ MVar.bare) 1 (r.table.owns ·) (s.table.owns ·) := by
  have hseat : ∀ m, r.table.owns m →
      s.table.owns (s.table.seat m.bare) ∧ (s.table.seat m.bare).bare = m.bare := by
    intro m hm
    obtain ⟨k, hk, hkm⟩ := Table.exists_bare hs h hm
    rw [← hkm, Table.seat_bare hk]
    exact ⟨hk, rfl⟩
  refine ⟨fun m hm => (hseat m hm).1, fun m k hm hk heq => ?_, fun m hm c => ?_⟩
  · refine Table.bare_inj hm hk ?_
    rw [← (hseat m hm).2, ← (hseat k hk).2]
    exact congrArg MVar.bare heq
  · have hscope : (s.table.seat m.bare).bare.scope = m.bare.scope :=
      congrArg MVar.scope (hseat m hm).2
    exact iff_of_eq (congrArg (c ∈ ·) hscope)

theorem Ty.Over.owned_expand (hr : r.Valid Ty.Any) (ht : t.Over r) :
    (r.table.expand t).Owned r.table := (ht.expand hr).owned

theorem expand_eq_of_outline (hs : s.Valid Ty.Any) (hu : u.Over s)
    (h : s.table.outline u = r.table.outline t) :
    s.table.expand u = (r.table.expand t).relabel (s.table.seat ∘ MVar.bare) id := by
  rw [← (hu.owned_expand hs).relabel_seat, show (s.table.expand u).bare = (r.table.expand t).bare from h]
  exact Ty.relabel_relabel _

/-- **What is left determines the end.** -/
theorem Opening.Ends.unique {o : Opening} {v v' : Option TypeError.Kind} (h : o.Ends v)
    (h' : o.Ends v') : v' = v := by
  obtain ⟨r, a, b, σ, hr, ha, hb, rfl, heq⟩ := h
  obtain ⟨s, a', b', σ', hs, ha', hb', ho, heq'⟩ := h'
  injection ho with hl hleft hright
  rw [expand_eq_of_outline hs ha' hleft.symm, expand_eq_of_outline hs hb' hright.symm] at heq'
  exact (heq.unique (g := 1) heq' (hs.tidy.faithful_seat hl.symm) (ha.owned_expand hr)
    (hb.owned_expand hr)).1

end

/-- Types of the run and a scope to subsume them in, with no quantifier hidden. -/
structure Run.Poses (r : Run) (scope : Scope) (a b : Ty) : Prop where
  valid : r.Valid Ty.Any
  scope : scope.Over r
  left : a.Over r
  right : b.Over r
  showsLeft : r.table.Shows a
  showsRight : r.table.Shows b

/-- Opening the quantifiers of two types of the run. -/
def Run.opening (r : Run) (scope : Scope) (a b : Ty) : Opening :=
  RankN.opening scope r.skolems r.table.outlines (r.table.outline a) (r.table.outline b)

section

variable {r r' s : Run} {a b a' b' t : Ty} {scope : Scope} {k : Nat} {x : String}

theorem Run.Agrees.poses (h : r.Agrees r') (hp : r.Poses scope a b) : r'.Poses scope a b where
  valid := h.valid hp.valid
  scope := hp.scope.mono h.extends_
  left := h.extends_.isOver hp.left
  right := h.extends_.isOver hp.right
  showsLeft := by
    rw [h.table]
    exact hp.showsLeft
  showsRight := by
    rw [h.table]
    exact hp.showsRight

theorem Run.Agrees.opening (h : r.Agrees r') (scope : Scope) (a b : Ty) :
    r'.opening scope a b = r.opening scope a b := by
  rw [Run.opening, h.table, h.skolems, Run.opening]

/-- Opening a quantifier on the right. -/
theorem Run.Poses.opened_right (h : r.Poses scope a (.all k x b)) :
    let c := (Run.newSkolem r).1
    let open_ := openAll x b (.skolem c) (Run.newSkolem r).2
    open_.2.Poses (scope.insert c) a open_.1 ∧
      open_.2.opening (scope.insert c) a open_.1 = r.opening scope a (.all k x b) := by
  intro c open_
  have hr₁ := h.valid.newSkolem
  have he := r.extends_newSkolem
  have hc : (Run.newSkolem r).2.Allocated c := by simp [c, Run.Allocated, Run.newSkolem]
  have hc' : (Ty.skolem c).Over (Run.newSkolem r).2 := by simpa [Ty.Over] using hc
  have hb : b.Over (Run.newSkolem r).2 := he.isOver h.right
  have hopened := hr₁.opened x hb hc'
  have hag : (Run.newSkolem r).2.Agrees open_.2 := hopened.agrees
  obtain ⟨-, -, hout⟩ := hr₁.tidy.opened x hb.owned hc'.owned
  refine ⟨⟨hag.valid hr₁, ((h.scope.mono he).insert hc).mono hag.extends_,
    hag.extends_.isOver (he.isOver h.left), hopened.isOver, ?_, hr₁.shows_opened x trivial⟩, ?_⟩
  · rw [hag.table]
    exact h.showsLeft
  · rw [Run.opening, hout, hag.table, hag.skolems, Run.opening, Table.outline_all, opening_right]
    rfl

/-- Opening a quantifier on the left, when there is none on the right. -/
theorem Run.Poses.opened_left (h : r.Poses scope (.all k x a) b) (hb : ¬ b.Quantified) :
    let m := (Run.newMVar scope r).1
    let open_ := openAll x a (.mvar m) (Run.newMVar scope r).2
    open_.2.Poses scope open_.1 b ∧
      open_.2.opening scope open_.1 b = r.opening scope (.all k x a) b := by
  intro m open_
  have hr₁ := h.valid.newMVar h.scope
  have he := r.extends_newMVar scope
  have hadds := h.valid.adds_newMVar scope
  have hbec := h.valid.tidy.becomes_newMVar scope
  have hm : (Ty.mvar m).Over (Run.newMVar scope r).2 := by simpa [Ty.Over] using hadds.owned
  have ha : a.Over r := h.left
  have hopened := hr₁.opened x (he.isOver ha) hm
  have hag : (Run.newMVar scope r).2.Agrees open_.2 := hopened.agrees
  obtain ⟨-, -, hout⟩ := hr₁.tidy.opened x (he.isOver ha).owned hm.owned
  refine ⟨⟨hag.valid hr₁, (h.scope.mono he).mono hag.extends_, hopened.isOver,
    hag.extends_.isOver (he.isOver h.right), hr₁.shows_opened x hadds.unsolved, ?_⟩, ?_⟩
  · rw [hag.table, Table.Shows, h.valid.acyclic.expand_congr hadds.solution]
    exact h.showsRight
  · rw [Run.opening, hout, hag.table, hag.skolems, hbec.outlines, hadds.skolems,
      hbec.same h.right.owned, hbec.same ha.owned, Table.outline_unsolved hadds.unsolved,
      h.valid.tidy.bare_newMVar, Run.opening, Table.outline_all,
      opening_left _ _ (h.showsRight.outline hb)]

/-- **Subsumption** opens quantifiers, and ends as making equal what is left does. -/
theorem subsumeWithin_ends (n : Nat) (h : r.Poses scope a b) :
    (subsumeWithin n scope a b).Concludes r fun v _ => (r.opening scope a b).Ends v := by
  induction n generalizing scope a b r with
  | zero =>
    rw [subsumeWithin]
    exact rfl
  | succ n ih =>
    have hlog := r.agrees_log (.subsume a b)
    have hp := hlog.poses h
    rw [← hlog.opening]
    by_cases hqb : b.Quantified
    · obtain ⟨k, x, u, rfl⟩ := hqb.exists_all
      obtain ⟨hp', hopening⟩ := hp.opened_right
      rw [subsumeWithin_right, ← hopening]
      exact concludes_lift_bind.2 (concludes_lift_bind.2 (concludes_lift_bind.2 (ih hp')))
    by_cases hqa : a.Quantified
    · obtain ⟨k, x, t, rfl⟩ := hqa.exists_all
      obtain ⟨hp', hopening⟩ := hp.opened_left hqb
      rw [subsumeWithin_left n scope k x t (Ty.ne_all hqb), ← hopening]
      exact concludes_lift_bind.2 (concludes_lift_bind.2 (concludes_lift_bind.2 (ih hp')))
    · rw [subsumeWithin_base n scope (Ty.ne_all hqa) (Ty.ne_all hqb), Run.opening,
        opening_base (hp.showsLeft.outline hqa) (hp.showsRight.outline hqb)]
      refine concludes_lift_bind.2 ?_
      refine Concludes.mono (unify_equates hp.valid (fun _ hm => hm) hp.left hp.right) fun v r' h => ?_
      obtain ⟨σ, heq, -⟩ := h
      exact ⟨_, a, b, σ, hp.valid, hp.left, hp.right, rfl, heq⟩

theorem subsume_ends (h : r.Poses scope a b) :
    (subsume scope a b).Concludes r fun v _ => (r.opening scope a b).Ends v :=
  ensures_bind.2 (ensures_get.2 (subsumeWithin_ends _ h))

/-- Pruned types hide nothing. -/
theorem Run.PrunedTo.shows (h : r.PrunedTo t a s) : s.table.Shows a :=
  Table.shows_of_unsolved fun m hm => h.unsolved m (by simp [hm])

theorem Run.Shortened.poses (hs : r.Shortened s) (hscope : scope.Over r) (ha : r.PrunedTo a a' s)
    (hb : r.PrunedTo b b' s) : s.Poses scope a' b' := by
  refine ⟨hs.valid, fun c hc => ?_, ha.isOver', hb.isOver', ha.shows, hb.shows⟩
  have := hscope c hc
  unfold Run.Allocated at *
  rwa [hs.skolems]

theorem subsume_endAlike_pruned (h : r.Poses scope a b) (ha : r.PrunedTo a a' s)
    (hb : r.PrunedTo b b' s) :
    (subsume scope a b).EndAlike r (subsume scope a' b') s (fun _ _ _ _ => True)
      fun _ _ => True := by
  have hp := ha.toShortened.poses h.scope ha hb
  have hopening : s.opening scope a' b' = r.opening scope a b := by
    rw [Run.opening, ha.skolems, ha.toShortened.outlines, Table.outline, Table.outline, ha.expand',
      hb.expand']
    rfl
  have hends := subsume_ends hp
  rw [hopening] at hends
  exact (subsume_ends h).endAlike hends (subsume_finishes h.valid.inOrder a b)
    (subsume_finishes hp.valid.inOrder a' b') fun v v' _ _ hv hv' => ⟨hv.unique hv', trivial⟩

/-- What is hidden shows when the type is pruned. -/
theorem Run.Valid.shows_iff (hr : r.Valid Ty.Any) :
    r.table.Shows t ↔ ((RankN.prune t r).1.Quantified → t.Quantified) := by
  rw [Table.Shows, ← plain_prune hr.acyclic, Ty.quantified_plain]

end

/-- **Subsumption sees through solved metavariables**, but not to a quantifier at the top. In every
reachable run, for every scope and all types of the run: if neither pruned type begins with a
quantifier where the type itself does not, subsumption succeeds exactly if it succeeds on the pruned
types. -/
theorem Reachable.subsume_pruned_iff {r : Run} (hr : Reachable r) {scope : Scope} {a b : Ty}
    (hs : scope.Over r) (ha : a.Over r) (hb : b.Over r)
    (hqa : (prune a r).1.Quantified → a.Quantified)
    (hqb : (prune b r).1.Quantified → b.Quantified) :
    (∃ r', subsume scope a b r = .ok () r') ↔
      ∃ s', (do
        let a ← prune a
        let b ← prune b
        subsume scope a b : Solve Unit) r = .ok () s' := by
  have hv := hr.valid
  obtain ⟨ha', hb'⟩ := Run.prunedTo_both hv ha hb
  have hp : r.Poses scope a b := ⟨hv, hs, ha, hb, hv.shows_iff.2 hqa, hv.shows_iff.2 hqb⟩
  have halike : (subsume scope a b).EndAlike r
      (do
        let a ← prune a
        let b ← prune b
        subsume scope a b : Solve Unit) r (fun _ _ _ _ => True) fun _ _ => True :=
    endAlike_lift_bind.2 (endAlike_lift_bind.2 (subsume_endAlike_pruned hp ha' hb'))
  exact halike.ok_iff

/-- With `?0` solved by `forall a. a -> a`, `Int -> ?0` is an instance of `forall b. b -> ?0`, and so
it is after pruning. -/
theorem subsume_pruned_iff_of_inner_quantifier :
    let m : MVar := ⟨3, 0, .empty⟩
    let t : Ty := .all 0 "a" (.arrow 0 (.var "a") (.var "a"))
    let a : Ty := .all 0 "b" (.arrow 0 (.var "b") (.mvar m))
    let b : Ty := .arrow 0 (.var "Int") (.mvar m)
    let r := (Operation.solve m t).run ((Operation.newMVar .empty).run {})
    let y : Solve Unit := do
      let a ← prune a
      let b ← prune b
      subsume .empty a b
    subsume .empty a b r = .ok () ((subsume .empty a b).after r) ∧ ∃ s', y r = .ok () s' := by
  intro m t a b r y
  have hreach : Reachable r := by
    have h₀ : Reachable {} := .empty ⟨rfl, rfl, rfl⟩
    have h₁ := h₀.step (.newMVar .empty) (show Scope.Over _ _ by decide)
    exact h₁.step (.solve m t) ⟨by decide, by decide⟩
  have hover : a.Over r ∧ b.Over r ∧ Scope.Over r .empty := by decide +kernel
  have hshown : ((prune a r).1.Quantified → a.Quantified) ∧
      ((prune b r).1.Quantified → b.Quantified) := by decide +kernel
  have hok : subsume .empty a b r = .ok () ((subsume .empty a b).after r) :=
    Action.eq_ok_after (by decide +kernel)
  clear_value r
  refine ⟨hok, ?_⟩
  exact (hreach.subsume_pruned_iff hover.2.2 hover.1 hover.2.1 hshown.1 hshown.2).1 ⟨_, hok⟩

/-- With `?0` solved by `forall a. a -> a`, `Int -> Int` is no instance of `?0`, but it is an instance
of its pruned form. -/
theorem subsume_of_hidden_quantifier :
    let m : MVar := ⟨3, 0, .empty⟩
    let t : Ty := .all 0 "a" (.arrow 0 (.var "a") (.var "a"))
    let b : Ty := .arrow 0 (.var "Int") (.var "Int")
    let r := (Operation.solve m t).run ((Operation.newMVar .empty).run {})
    let y : Solve Unit := do
      let a ← prune (.mvar m)
      let b ← prune b
      subsume .empty a b
    Reachable r ∧ (Ty.mvar m).Over r ∧ b.Over r ∧
      (¬ ∃ r', subsume .empty (.mvar m) b r = .ok () r') ∧ ∃ s', y r = .ok () s' := by
  intro m t b r y
  have hreach : Reachable r := by
    have h₀ : Reachable {} := .empty ⟨rfl, rfl, rfl⟩
    have h₁ := h₀.step (.newMVar .empty) (show Scope.Over _ _ by decide)
    exact h₁.step (.solve m t) ⟨by decide, by decide⟩
  exact ⟨hreach, by decide, by decide, Action.not_ok (by decide +kernel), _,
    Action.eq_ok_after (by decide +kernel)⟩

end RankN
