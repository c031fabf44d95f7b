import RankN.Proofs.Equating
import RankN.Proofs.Reachable
import RankN.Proofs.Termination

/-!
# What unification depends on

If all constants in its types have been allocated, what unification does depends on the expansions of
its types, and on nothing else. Which metavariable of two it solves, and which constants it opens
quantifiers at, depends on how it got there.

**Reading off the end.** `unify_equates` says that unification makes the expansions of its types equal
in the sense of `Equating`, whose choices do not matter. So two calls of unification on types that
have the same expansions end alike (`Action.Equates.endAlike`): both succeed, or both fail with errors
of one kind, and the two runs differ by an exchange of metavariables of equal scope that were
unsolved.
-/

namespace RankN

open RankN.Action

/-! ## How an action ends -/

namespace Action

variable {α β : Type} {x : Solve α} {y : Solve β} {r s : Run}

/-- However the action ends, unless its steps run out, `P` holds of the kind of its error, if there
is one, and of the run that it leaves. -/
def Concludes (x : Solve α) (r : Run) (P : Option TypeError.Kind → Run → Prop) : Prop :=
  x.Ensures r (fun _ r' => P none r') fun
    | .error why, r' => P (some why.kind) r'
    | .fault f, _ => f = .cyclic

/-- Both actions succeed, with answers and runs as in `Q`, or both fail with errors of one kind, and
leave runs as in `E`. -/
def EndAlike (x : Solve α) (r : Run) (y : Solve β) (s : Run) (Q : α → Run → β → Run → Prop)
    (E : Run → Run → Prop) : Prop :=
  match x r, y s with
  | .ok a r', .ok b s' => Q a r' b s'
  | .error (.error why) r', .error (.error why') s' => why.kind = why'.kind ∧ E r' s'
  | _, _ => False

theorem endAlike_iff {Q : α → Run → β → Run → Prop} {E : Run → Run → Prop} :
    x.EndAlike r y s Q E ↔
      (∃ a r' b s', x r = .ok a r' ∧ y s = .ok b s' ∧ Q a r' b s') ∨
        ∃ why r' why' s', x r = .error (.error why) r' ∧ y s = .error (.error why') s' ∧
          why.kind = why'.kind ∧ E r' s' := by
  unfold EndAlike
  constructor
  · intro h
    split at h
    · exact .inl ⟨_, _, _, _, ‹_›, ‹_›, h⟩
    · exact .inr ⟨_, _, _, _, ‹_›, ‹_›, h⟩
    · exact h.elim
  · intro h
    rcases h with ⟨a, r', b, s', hx, hy, h⟩ | ⟨why, r', why', s', hx, hy, h⟩
    · rwa [hx, hy]
    · rwa [hx, hy]

theorem EndAlike.of_ok {Q : α → Run → β → Run → Prop} {E : Run → Run → Prop} {a : α} {b : β}
    {r' s' : Run} (h : x.EndAlike r y s Q E) (hx : x r = .ok a r') (hy : y s = .ok b s') :
    Q a r' b s' := by
  simpa only [EndAlike, hx, hy] using h

theorem EndAlike.ok_iff {x y : Solve Unit} {r s : Run} {Q : Unit → Run → Unit → Run → Prop}
    {E : Run → Run → Prop} (h : x.EndAlike r y s Q E) :
    (∃ r', x r = .ok () r') ↔ ∃ s', y s = .ok () s' := by
  rcases endAlike_iff.1 h with ⟨_, r', _, s', hx, hy, -⟩ | ⟨_, r', _, s', hx, hy, -⟩
  · exact iff_of_true ⟨r', hx⟩ ⟨s', hy⟩
  · simp [hx, hy]

theorem Concludes.mono {P P' : Option TypeError.Kind → Run → Prop} (h : x.Concludes r P)
    (hP : ∀ v r', P v r' → P' v r') : x.Concludes r P' := by
  refine Ensures.mono h (fun _ r' h => hP none r' h) fun stop r' h => ?_
  cases stop with
  | error why => exact hP _ r' h
  | fault f => exact h

theorem concludes_lift_bind {x : StateM Run β} {f : β → Solve α}
    {P : Option TypeError.Kind → Run → Prop} :
    (liftM x >>= f).Concludes r P ↔ (f (x r).1).Concludes (x r).2 P := by
  unfold Concludes
  rw [ensures_bind, ensures_lift]

theorem endAlike_lift_bind {γ : Type} {z : StateM Run γ} {f : γ → Solve β}
    {Q : α → Run → β → Run → Prop} {E : Run → Run → Prop} :
    x.EndAlike r (liftM z >>= f) s Q E ↔ x.EndAlike r (f (z s).1) (z s).2 Q E := Iff.rfl

/-- Two actions that end for the same reasons, and in time, end alike. -/
theorem Concludes.endAlike {P P' : Option TypeError.Kind → Run → Prop} {R : Run → Run → Prop}
    (hx : x.Concludes r P) (hy : y.Concludes s P') (hfx : x.Finishes r) (hfy : y.Finishes s)
    (h : ∀ v v' r' s', P v r' → P' v' s' → v' = v ∧ R r' s') :
    x.EndAlike r y s (fun _ r' _ s' => R r' s') R := by
  unfold Concludes Finishes Ensures at *
  unfold EndAlike
  cases hxr : x r with
  | ok a r' =>
    rw [hxr] at hx
    cases hys : y s with
    | ok b s' =>
      rw [hys] at hy
      exact (h _ _ _ _ hx hy).2
    | error stop s' =>
      rw [hys] at hy hfy
      cases stop with
      | error why => cases (h _ _ _ _ hx hy).1
      | fault f => exact absurd (congrArg Stop.fault hy) hfy
  | error stop r' =>
    rw [hxr] at hx hfx
    cases stop with
    | fault f => exact absurd (congrArg Stop.fault hx) hfx
    | error why =>
      cases hys : y s with
      | ok b s' =>
        rw [hys] at hy
        cases (h _ _ _ _ hx hy).1
      | error stop s' =>
        rw [hys] at hy hfy
        cases stop with
        | error why' =>
          obtain ⟨hv, hR⟩ := h _ _ _ _ hx hy
          exact ⟨(Option.some.inj hv).symm, hR⟩
        | fault f => exact absurd (congrArg Stop.fault hy) hfy

end Action

/-! ## What is filled in -/

/-- The table `tb'` is `tb` with `σ` filled in. -/
def Table.Fills (tb : Table) (σ : MVar → Ty) (tb' : Table) : Prop :=
  ∀ t, tb'.expand t = (tb.expand t).fill σ

theorem Ty.fill_fill (σ τ : MVar → Ty) (t : Ty) :
    (t.fill σ).fill τ = t.fill fun m => (σ m).fill τ := by
  induction t with
  | all n x body ih => simpa using ih
  | arrow n p q ihp ihq => simp [ihp, ihq]
  | app n fn arg ihf iha => simp [ihf, iha]
  | _ => rfl

namespace Table

variable {tb tb' tb'' : Table} {σ τ : MVar → Ty}

theorem fills_mvar (h : ∀ t, tb'.expand t = tb.expand t) : tb.Fills .mvar tb' := fun t =>
  (h t).trans (Ty.fill_eq_self fun _ _ => rfl).symm

theorem Fills.trans (h : tb.Fills σ tb') (h' : tb'.Fills τ tb'') :
    tb.Fills (fun m => (σ m).fill τ) tb'' := by
  intro t
  rw [h' t, h t, Ty.fill_fill]

end Table

section

variable {U : MVar → Prop} {r : Run} {a b t : Ty} {m : MVar} {n : Nat}

/-- The expansion of a type is made of unsolved metavariables and constants of the run. -/
theorem Ty.Over.leaves_expand (hr : r.Valid Ty.Any) (ht : t.Over r) :
    (r.table.expand t).Leaves (fun m => r.table.owns m ∧ r.table.solution? m = none)
      r.Allocated := by
  have hover := ht.expand hr
  refine ⟨fun m hm => ⟨hover.1 m hm, ?_⟩, hover.2⟩
  exact hr.acyclic.unsolved_of_mem_expand hm

/-- The next constant is not in the expansion of a type. -/
theorem Ty.Over.skolem_notMem_expand (hr : r.Valid Ty.Any) (ht : t.Over r) :
    (r.skolems : Int) ∉ (r.table.expand t).skolems := by
  intro h
  exact absurd ((ht.leaves_expand hr).2 _ h).2 (lt_irrefl _)

/-- The body of a quantified type, opened at a type. -/
structure Run.Opened (r : Run) (x : String) (body new t : Ty) (r' : Run) : Prop where
  agrees : r.Agrees r'
  isOver : t.Over r'
  expand : r'.table.expand t = (r.table.expand body).replace x (r.table.expand new)

theorem Run.Valid.opened (hr : r.Valid Ty.Any) (x : String) {body new : Ty} (hbody : body.Over r)
    (hnew : new.Over r) :
    r.Opened x body new (openAll x body new r).1 (openAll x body new r).2 := by
  have hagrees : r.Agrees (openAll x body new r).2 := (subst_restamped x new body r).agrees
  refine ⟨hagrees, hagrees.extends_.isOver ?_, ?_⟩
  · exact leaves_subst (fun m t ht => (hr.solutions m t ht).isOver) hnew hbody
  · rw [hagrees.table]
    exact expand_subst hr.acyclic x new body

/-- Open the bodies of two quantified types at the next constant. -/
def openBoth (x : String) (t : Ty) (y : String) (u : Ty) : StateM Run (Ty × Ty) := do
  let c ← Run.newSkolem
  let t ← openAll x t (.skolem c)
  let u ← openAll y u (.skolem c)
  return (t, u)

/-- The outcome of opening two bodies. -/
structure Run.OpenedBoth (r : Run) (x : String) (t : Ty) (y : String) (u : Ty)
    (res : (Ty × Ty) × Run) : Prop where
  idles : r.Idles res.2
  skolems : res.2.skolems = r.skolems + 1
  left : res.1.1.Over res.2
  right : res.1.2.Over res.2
  expand_left : res.2.table.expand res.1.1 = (r.table.expand t).replace x (.skolem r.skolems)
  expand_right : res.2.table.expand res.1.2 = (r.table.expand u).replace y (.skolem r.skolems)

theorem Run.Valid.openedBoth (hr : r.Valid Ty.Any) (x y : String) {t u : Ty} (ht : t.Over r)
    (hu : u.Over r) : r.OpenedBoth x t y u (openBoth x t y u r) := by
  have hr₁ := hr.newSkolem
  have he₁ := r.extends_newSkolem
  have hc : (Ty.skolem (Run.newSkolem r).1).Over (Run.newSkolem r).2 := by
    simp [Ty.Over, Run.Allocated, Run.newSkolem]
  have h₂ := hr₁.opened x (he₁.isOver ht) hc
  have h₃ := (h₂.agrees.valid hr₁).opened y (h₂.agrees.extends_.isOver (he₁.isOver hu))
    (h₂.agrees.extends_.isOver hc)
  refine ⟨(r.idles_newSkolem.trans h₂.agrees.idles).trans h₃.agrees.idles,
    h₃.agrees.skolems.trans (h₂.agrees.skolems.trans rfl),
    h₃.agrees.extends_.isOver h₂.isOver, h₃.isOver, ?_, ?_⟩
  · exact (congrArg (Table.expand · _) h₃.agrees.table).trans h₂.expand
  · refine h₃.expand.trans ?_
    rw [h₂.agrees.table]
    rfl

/-! ## Solving a metavariable -/

/-- Solving an unsolved metavariable ends as its expansion says. -/
theorem settle_concludes (hr : r.Valid Ty.Any) (ho : r.table.owns m)
    (hm : r.table.solution? m = none) (hne : t ≠ .mvar m)
    (ht : ∀ k, t = .mvar k → r.table.solution? k = none) :
    (settle m t).Concludes r fun v r' => v = (settling m (r.table.expand t)).2 ∧
      r.table.Fills (settling m (r.table.expand t)).1 r'.table := by
  have hexpand : ∀ k, r.table.expand t = .mvar k → t = .mvar k := by
    intro k hk
    cases t with
    | mvar j => rwa [Table.expand_unsolved (ht j rfl)] at hk
    | _ => simp at hk
  have hne' : r.table.expand t ≠ .mvar m := fun h => hne (hexpand m h)
  refine ensures_settle (fun why h => ?_) fun hfree => ?_
  · rw [obstacle?_eq hr.acyclic hm] at h
    rw [settling_blocked hne' h]
    exact ⟨rfl, Table.fills_mvar (expand_prune hr.acyclic t)⟩
  · rw [obstacle?_eq hr.acyclic hm] at hfree
    refine ensures_assign ho hm (fun h => ?_) fun h => ?_
    · subst h
      rw [Table.expand_absent, settling_absent]
      exact ⟨rfl, Table.fills_mvar fun _ => rfl⟩
    · have habsent : r.table.expand t ≠ .absent := by
        cases t with
        | mvar j => simp [Table.expand_unsolved (ht j rfl)]
        | absent => exact absurd rfl h
        | _ => simp
      rw [settling_free hfree habsent]
      exact ⟨rfl, hr.acyclic.expand_write ho hm (obstacle?_empty_eq_none.1 hfree).1⟩

/-- **Making an unsolved metavariable equal to a type** ends as the expansion of the type says. -/
theorem solveWithin_concludes (n : Nat) (t : Ty) (r : Run) (hr : r.Valid Ty.Any)
    (ho : r.table.owns m) (hm : r.table.solution? m = none) :
    (solveWithin n m t).Concludes r fun v r' => v = (settling m (r.table.expand t)).2 ∧
      r.table.Fills (settling m (r.table.expand t)).1 r'.table := by
  induction n generalizing t r with
  | zero => rw [solveWithin]; exact rfl
  | succ n ih =>
    have hlog := r.agrees_log (.solve m t)
    have hr₁ := hlog.valid hr
    refine ensures_solveWithin ?_ ?_ ?_ ?_
    · rintro rfl
      rw [Table.expand_unsolved hm, settling_self, hlog.table]
      exact ⟨rfl, Table.fills_mvar fun _ => rfl⟩
    · intro u hu
      rw [hm] at hu
      cases hu
    · rintro k u - rfl hu
      rw [hr.acyclic.expand_solved hu]
      rw [← hlog.table] at ho hm ⊢
      exact ih u _ hr₁ ho hm
    · intro _ hne ht
      rw [← hlog.table] at ho hm ht ⊢
      exact settle_concludes hr₁ ho hm hne ht

/-! ## Unification -/

/-- The action makes two expanded types equal. -/
def Action.Equates (U : MVar → Prop) (x : Solve Unit) (r : Run) (t u : Ty) : Prop :=
  x.Concludes r fun v r' => ∃ σ, Equating U t u σ v ∧ r.table.Fills σ r'.table

theorem Action.Equates.symm {x : Solve Unit} {t u : Ty} (h : x.Equates U r t u) :
    x.Equates U r u t := by
  refine Concludes.mono h fun v r' h => ?_
  obtain ⟨σ, heq, hfills⟩ := h
  exact ⟨σ, heq.symm, hfills⟩

/-- With `n` steps, unification makes the expansions of its types equal. -/
def UnifyEquates (U : MVar → Prop) (n : Nat) : Prop :=
  ∀ (a b : Ty) (r : Run), r.Valid Ty.Any → (∀ m, U m → r.table.owns m) → a.Over r → b.Over r →
    (unifyWithin n a b).Equates U r (r.table.expand a) (r.table.expand b)

/-- With `n` steps, solving makes the expansions of a metavariable and a type equal. -/
def SolveEquates (U : MVar → Prop) (n : Nat) : Prop :=
  ∀ (m : MVar) (t : Ty) (r : Run), r.Valid Ty.Any → (∀ m, U m → r.table.owns m) →
    r.table.owns m → t.Over r →
    (solveWithin n m t).Equates U r (r.table.expand (.mvar m)) (r.table.expand t)

/-- Two pairs of parts are made equal one after the other. -/
theorem UnifyEquates.both (ih : UnifyEquates U n) (hr : r.Valid Ty.Any)
    (hU : ∀ m, U m → r.table.owns m) {p p' q q' t u : Ty} (hp : p.Over r) (hp' : p'.Over r)
    (hq : q.Over r) (hq' : q'.Over r)
    (hparts : t.Parts u (r.table.expand p) (r.table.expand p') (r.table.expand q)
      (r.table.expand q')) :
    (do unifyWithin n p p'; unifyWithin n q q' : Solve Unit).Equates U r t u := by
  refine ensures_bind.2 ?_
  have hkeeps := (unifyWithin_keeps Ty.stable_any n).1 p p' r hr ⟨hp, trivial⟩ ⟨hp', trivial⟩
  refine (Ensures.and hkeeps (ih p p' r hr hU hp hp')).mono (fun _ r₁ h => ?_) fun stop r₁ h => ?_
  · obtain ⟨⟨hr₁, he, -⟩, σ, heq, hfills⟩ := h
    have h₂ := ih q q' r₁ hr₁ (fun m hm => he.owns m (hU m hm)) (he.isOver hq) (he.isOver hq')
    rw [hfills q, hfills q'] at h₂
    show Concludes _ r₁ fun v r' => ∃ σ, Equating U t u σ v ∧ r.table.Fills σ r'.table
    refine Concludes.mono h₂ fun v r₂ h => ?_
    obtain ⟨τ, heq', hfills'⟩ := h
    exact ⟨_, .both hparts heq heq', hfills.trans hfills'⟩
  · obtain ⟨-, h⟩ := h
    cases stop with
    | fault f => exact h
    | error why =>
      obtain ⟨σ, heq, hfills⟩ := h
      exact ⟨σ, .first hparts heq, hfills⟩

theorem Ty.Clashes.expand {tb : Table} (h : a.Clashes b) : (tb.expand a).Clashes (tb.expand b) := by
  cases a <;> cases b <;> simp_all [Clashes]

/-- Types that clash and differ have different expansions. -/
theorem Ty.Clashes.expand_ne {tb : Table} (h : a.Clashes b) (hne : a ≠ b) :
    tb.expand a ≠ tb.expand b := by
  cases a <;> cases b <;> simp_all [Clashes]

theorem mismatch_equates (hr : r.Valid Ty.Any) (hne : a ≠ b) (hc : a.Clashes b) :
    (mismatch a b : Solve Unit).Equates U r (r.table.expand a) (r.table.expand b) := by
  unfold mismatch Equates Concludes
  simp only [ensures_bind, ensures_lift]
  refine ⟨.mvar, .clash (hc.expand_ne hne) hc.expand, Table.fills_mvar fun t => ?_⟩
  rw [expand_prune (hr.prune a).acyclic, expand_prune hr.acyclic]

/-- Two quantified types are made equal by way of their bodies at the next constant. -/
theorem UnifyEquates.opened (ih : UnifyEquates U n) (hr : r.Valid Ty.Any)
    (hU : ∀ m, U m → r.table.owns m) {k k' : Nat} {x y : String} {t u : Ty} (ht : t.Over r)
    (hu : u.Over r) :
    (do
      let c ← Run.newSkolem
      let t ← openAll x t (.skolem c)
      let u ← openAll y u (.skolem c)
      unifyWithin n t u : Solve Unit).Equates U r (.all k x (r.table.expand t))
        (.all k' y (r.table.expand u)) := by
  have ho := hr.openedBoth x y ht hu
  have hunify := ih _ _ _ (ho.idles.valid hr) (by rwa [ho.idles.table]) ho.left ho.right
  rw [ho.expand_left, ho.expand_right] at hunify
  refine concludes_lift_bind.2 (concludes_lift_bind.2 (concludes_lift_bind.2 ?_))
  refine Concludes.mono hunify fun v r' h => ?_
  obtain ⟨σ, heq, hfills⟩ := h
  refine ⟨σ, .all (ht.skolem_notMem_expand hr) (hu.skolem_notMem_expand hr) ?_ heq, ?_⟩
  · intro m hm hc
    exact absurd (hr.scopes m (hU m hm) _ hc).2 (lt_irrefl _)
  · rwa [ho.idles.table] at hfills

theorem unifyWithin_equates_step (hunify : UnifyEquates U n) (hsolve : SolveEquates U n) :
    UnifyEquates U (n + 1) := by
  intro a b r hr hU ha hb
  have hlog := r.agrees_log (.unify a b)
  have hr₁ := hlog.valid hr
  have ha₁ := hlog.extends_.isOver ha
  have hb₁ := hlog.extends_.isOver hb
  have hscopes : ∀ m, U m → ∀ c ∈ m.scope, c < r.skolems := fun m hm c hc =>
    (hr.scopes m (hU m hm) c hc).2
  unfold Equates Concludes
  rw [← hlog.table] at hU ⊢
  refine ensures_unifyWithin ?_ ?_ ?_ ?_ ?_ ?_ fun hne hc => mismatch_equates hr₁ hne hc
  · rintro rfl
    exact ⟨.mvar, .refl hscopes _, Table.fills_mvar fun _ => rfl⟩
  · rintro k p q k' p' q' rfl rfl
    have hpq := Ty.leaves_arrow.1 ha₁
    have hpq' := Ty.leaves_arrow.1 hb₁
    exact hunify.both hr₁ hU hpq.1 hpq'.1 hpq.2 hpq'.2 .arrow
  · rintro k p q k' p' q' rfl rfl
    have hpq := Ty.leaves_app.1 ha₁
    have hpq' := Ty.leaves_app.1 hb₁
    exact hunify.both hr₁ hU hpq.1 hpq'.1 hpq.2 hpq'.2 .app
  · rintro k x t k' y u rfl rfl
    exact hunify.opened hr₁ hU ha₁ hb₁
  · rintro m rfl
    exact hsolve m b _ hr₁ hU (by simpa [Ty.Over] using ha₁) hb₁
  · rintro m rfl
    exact (hsolve m a _ hr₁ hU (by simpa [Ty.Over] using hb₁) ha₁).symm

theorem solveWithin_equates_step (hunify : UnifyEquates U n) : SolveEquates U (n + 1) := by
  intro m t r hr hU ho ht
  cases hm : r.table.solution? m with
  | none =>
    rw [Table.expand_unsolved hm]
    refine Concludes.mono (solveWithin_concludes (n + 1) t r hr ho hm) fun v r' h => ?_
    obtain ⟨rfl, hfills⟩ := h
    exact ⟨_, .left, hfills⟩
  | some u =>
    have hlog := r.agrees_log (.solve m t)
    have hr₁ := hlog.valid hr
    have hscopes : ∀ m, U m → ∀ c ∈ m.scope, c < r.skolems := fun m hm c hc =>
      (hr.scopes m (hU m hm) c hc).2
    have hu := hlog.extends_.isOver (hr.solutions m u hm).isOver
    unfold Equates Concludes
    refine ensures_solveWithin ?_ ?_ ?_ ?_
    · rintro rfl
      exact ⟨.mvar, .refl hscopes _, Table.fills_mvar fun _ => by rw [hlog.table]⟩
    · intro u' hu'
      cases hm.symm.trans hu'
      rw [hr.acyclic.expand_solved hm]
      rw [← hlog.table] at hU ⊢
      exact hunify u t _ hr₁ hU hu (hlog.extends_.isOver ht)
    · intro m' u' hnone
      cases hm.symm.trans hnone
    · intro hnone
      cases hm.symm.trans hnone

theorem unifyWithin_equates (U : MVar → Prop) (n : Nat) : UnifyEquates U n ∧ SolveEquates U n := by
  induction n with
  | zero =>
    refine ⟨fun a b r _ _ _ _ => ?_, fun m t r _ _ _ _ => ?_⟩
    · rw [unifyWithin]
      exact rfl
    · rw [solveWithin]
      exact rfl
  | succ n ih => exact ⟨unifyWithin_equates_step ih.1 ih.2, solveWithin_equates_step ih.1⟩

/-- **Unification makes the expansions of its types equal.** -/
theorem unify_equates (hr : r.Valid Ty.Any) (hU : ∀ m, U m → r.table.owns m) (ha : a.Over r)
    (hb : b.Over r) : (unify a b).Equates U r (r.table.expand a) (r.table.expand b) :=
  ensures_bind.2 (ensures_get.2 ((unifyWithin_equates U _).1 a b r hr hU ha hb))

end

/-! ## Two calls -/

/-- The metavariables that the run has not solved. -/
def Run.Unsolved (r : Run) (m : MVar) : Prop := r.table.owns m ∧ r.table.solution? m = none

/-- The runs give every type the same pruned form, up to an exchange of metavariables in `U`. -/
def Run.SameUpTo (U : MVar → Prop) (r s : Run) : Prop :=
  ∃ π, Exchanges U π ∧ ∀ t, (prune t s).1.plain = (prune t r).1.plain.relabel π id

section

variable {U : MVar → Prop} {r s : Run} {a b a' b' : Ty}

/-- Expansions that are the same up to an exchange belong to runs that are. -/
theorem Run.SameUpTo.of_expand (hr : r.table.Acyclic) (hs : s.table.Acyclic) {π : Equiv.Perm MVar}
    (hπ : Exchanges U π) (h : ∀ t, s.table.expand t = (r.table.expand t).relabel π id) :
    r.SameUpTo U s := by
  refine ⟨π, hπ, fun t => ?_⟩
  rw [plain_prune hs, plain_prune hr, h]

/-- What an action concludes that keeps runs valid, it concludes of a valid run. -/
theorem Action.Concludes.valid {x : Solve Unit} {P : Option TypeError.Kind → Run → Prop}
    (h : x.Concludes r P) (hx : x.Keeps Ty.Any r fun _ _ => True) :
    x.Concludes r fun v r' => r'.Valid Ty.Any ∧ P v r' := by
  refine (Ensures.and hx h).mono (fun _ r' h => ⟨h.1.1, h.2⟩) fun stop r' h => ?_
  cases stop with
  | error why => exact h
  | fault f => exact h.2

/-- **Two actions that make the same types equal end alike**, if they start from runs in which types
have the same expansions. -/
theorem Action.Equates.endAlike {x y : Solve Unit} {t u : Ty} (hx : x.Equates U r t u)
    (hy : y.Equates U s t u) (hkx : x.Keeps Ty.Any r fun _ _ => True)
    (hky : y.Keeps Ty.Any s fun _ _ => True) (hfx : x.Finishes r) (hfy : y.Finishes s)
    (hexpand : ∀ t, s.table.expand t = r.table.expand t) (ht : t.Leaves U fun _ => True)
    (hu : u.Leaves U fun _ => True) :
    x.EndAlike r y s (fun _ r' _ s' => r'.SameUpTo U s') (Run.SameUpTo U) := by
  refine (Concludes.valid hx hkx).endAlike (Concludes.valid hy hky) hfx hfy
    fun v v' r' s' h h' => ?_
  obtain ⟨hr', σ, heq, hfills⟩ := h
  obtain ⟨hs', σ', heq', hfills'⟩ := h'
  have heq₁ := heq'
  rw [← t.relabel_id, ← u.relabel_id] at heq₁
  obtain ⟨hv, π, hπ, hσ⟩ := heq.unique (g := 1) heq₁ (faithful_id U) ht hu
  refine ⟨hv, .of_expand hr'.acyclic hs'.acyclic hπ fun w => ?_⟩
  -- For a metavariable that is not in play nothing is filled in, and it is not exchanged.
  have hall : ∀ m, σ' m = (σ m).relabel π id := by
    intro m
    by_cases hm : U m
    · exact hσ m hm
    · have hfix : π m = m := not_not.1 fun hne => hm (hπ.moved m hne)
      simp [heq.eq_mvar ht hu m hm, heq'.eq_mvar ht hu m hm, hfix]
  calc s'.table.expand w = (r.table.expand w).fill σ' := by rw [hfills' w, hexpand]
    _ = ((r.table.expand w).relabel id id).fill σ' := by rw [Ty.relabel_id]
    _ = ((r.table.expand w).fill σ).relabel π id := Ty.relabel_fill fun m _ => hall m
    _ = (r'.table.expand w).relabel π id := by rw [hfills w]

end

end RankN
