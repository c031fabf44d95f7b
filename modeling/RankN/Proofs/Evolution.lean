import RankN.Proofs.Preservation

/-!
# How a run evolves

Inference does four things to a table: it adds a slot, it fills an empty slot, it shortens solutions
by pruning, and it leaves everything as it is. This file says what survives all of them, in calls
that fail as well as in calls that succeed, and for all types: they may mention metavariables of
other runs, and have absent parts.

**Runs in order** (`Run.InOrder`). The table is acyclic, and no metavariable in it is still to be
allocated. The second part is what makes new metavariables new: the run has *passed* a metavariable
when its stamp or its number is no longer in the supply.

**Continuation** (`Run.Continues`). Metavariables keep their places, counters do not fall, and a
solved metavariable means for ever what its solution means. The solution itself may be replaced,
because pruning writes into slots. So this is stated through expansions, in the later table.

`x.Evolves E r Q` says that `x` leaves a run in order that continues `r`, however it ends. If it
succeeds, `Q` holds, and if it stops, `E` holds of why.
-/

namespace RankN

open RankN.Action

/-! ## Metavariables that the run has passed -/

/-- The run will not allocate this metavariable any more. -/
def Run.Passed (r : Run) (m : MVar) : Prop := m.stamp < r.stamps ∨ m.id < r.mvars

/-- The run has passed all metavariables in the type. -/
def Ty.Passed (r : Run) (t : Ty) : Prop := t.Leaves r.Passed fun _ => True

/-- The table is acyclic, and the run has passed all metavariables in it. -/
structure Run.InOrder (r : Run) : Prop where
  acyclic : r.table.Acyclic
  owned : ∀ m, r.table.owns m → r.Passed m
  solutions : ∀ m t, r.table.solution? m = some t → t.Passed r

instance (r : Run) (m : MVar) : Decidable (r.Passed m) := inferInstanceAs (Decidable (_ ∨ _))

instance (r : Run) (t : Ty) : Decidable (t.Passed r) := inferInstanceAs (Decidable (t.Leaves _ _))

section

variable {P : Ty → Prop} {r r' : Run} {m : MVar} {t : Ty}

theorem Run.Passed.mono (h : r.Passed m) (hs : r.stamps ≤ r'.stamps) (hm : r.mvars ≤ r'.mvars) :
    r'.Passed m := by
  rcases h with h | h
  · exact .inl (h.trans_le hs)
  · exact .inr (h.trans_le (Int.ofNat_le.2 hm))

/-- A run has passed the metavariables it owns. -/
theorem Run.Tidy.passed (hr : r.Tidy) (ho : r.table.owns m) : r.Passed m := by
  have hid := hr.ids _ m (Table.owns_iff_mvarAt?.1 ho)
  have hlt := Table.lt_size_of_owns ho
  have hcount := hr.count
  exact .inr (by omega)

theorem Ty.Owned.passed (ht : t.Owned r.table) (hr : r.Tidy) : t.Passed r :=
  ht.mono (fun _ ho => hr.passed ho) fun _ h => h

/-- Tidy runs are in order. -/
theorem Run.Tidy.inOrder (hr : r.Tidy) : r.InOrder where
  acyclic := hr.acyclic
  owned _ ho := hr.passed ho
  solutions m t ht := (hr.solutions m t ht).passed hr

theorem Ty.Over.passed (ht : t.Over r) (hr : r.Valid P) : t.Passed r := ht.owned.passed hr.tidy

theorem Run.Valid.inOrder (hr : r.Valid P) : r.InOrder := hr.tidy.inOrder

end

/-! ## Continuation -/

/-- The run `r'` has all metavariables of `r`, and means by the solved ones what `r` meant. -/
structure Run.Continues (r r' : Run) : Prop where
  mvarAt : ∀ i m, r.table.mvarAt? i = some m → r'.table.mvarAt? i = some m
  mvars : r.mvars ≤ r'.mvars
  skolems : r.skolems ≤ r'.skolems
  stamps : r.stamps ≤ r'.stamps
  solved : ∀ m t, r.table.solution? m = some t →
    (∃ t', r'.table.solution? m = some t') ∧ r'.table.expand (.mvar m) = r'.table.expand t

/-- The run `r'` continues `r` and is in order. -/
structure Run.Evolves (r r' : Run) : Prop extends r.Continues r' where
  inOrder : r'.InOrder

namespace Run.Continues

variable {r r' r'' : Run} {t : Ty}

theorem passed (h : r.Continues r') (ht : t.Passed r) : t.Passed r' :=
  ht.mono (fun _ hm => hm.mono h.stamps h.mvars) fun _ _ => trivial

/-- **Expanding in the earlier table first changes nothing.** -/
theorem expand_expand (h : r.Continues r') (ha : r.table.Acyclic) (t : Ty) :
    r'.table.expand (r.table.expand t) = r'.table.expand t := by
  induction t using ha.induction with
  | var | skolem | unknown | absent => rfl
  | all n x body ih => simp [ih]
  | arrow n p q ihp ihq => simp [ihp, ihq]
  | app n f a ihf iha => simp [ihf, iha]
  | unsolved m hm => rw [Table.expand_unsolved hm]
  | solved m u hm ih => rw [ha.expand_solved hm, ih, (h.solved m u hm).2]

theorem trans (h : r.Continues r') (h' : r'.Continues r'') (ha' : r'.table.Acyclic) :
    r.Continues r'' where
  mvarAt i m hm := h'.mvarAt i m (h.mvarAt i m hm)
  mvars := h.mvars.trans h'.mvars
  skolems := h.skolems.trans h'.skolems
  stamps := h.stamps.trans h'.stamps
  solved m t ht := by
    obtain ⟨⟨u, hu⟩, hexp⟩ := h.solved m t ht
    refine ⟨(h'.solved m u hu).1, ?_⟩
    calc r''.table.expand (.mvar m)
        = r''.table.expand (r'.table.expand (.mvar m)) := (h'.expand_expand ha' _).symm
      _ = r''.table.expand (r'.table.expand t) := by rw [hexp]
      _ = r''.table.expand t := h'.expand_expand ha' t

end Run.Continues

namespace Run.Evolves

variable {r r' r'' : Run}

theorem refl (hr : r.InOrder) : r.Evolves r where
  mvarAt _ _ h := h
  mvars := le_rfl
  skolems := le_rfl
  stamps := le_rfl
  solved _ t ht := ⟨⟨t, ht⟩, hr.acyclic.expand_solved ht⟩
  inOrder := hr

theorem trans (h : r.Evolves r') (h' : r'.Evolves r'') : r.Evolves r'' where
  toContinues := h.toContinues.trans h'.toContinues h.inOrder.acyclic
  inOrder := h'.inOrder

end Run.Evolves

/-! ## One step of a run -/

theorem Ty.passed_skolem (r : Run) (c : Int) : (Ty.skolem c).Passed r := Ty.leaves_skolem.2 trivial

theorem Ty.passed_newMVar (r : Run) (scope : Scope) :
    (Ty.mvar (Run.newMVar scope r).1).Passed (Run.newMVar scope r).2 :=
  Ty.leaves_mvar.2 (.inl (Nat.lt_succ_self r.stamps))

namespace Run.InOrder

variable {r r' : Run} {m : MVar} {t : Ty}

/-- Recording events and using up stamps. -/
theorem agrees (hr : r.InOrder) (h : r.Agrees r') (hs : r.stamps ≤ r'.stamps) : r.Evolves r' := by
  have hpassed : ∀ m, r.Passed m → r'.Passed m := fun m hm => hm.mono hs h.mvars.ge
  have ha : r'.table.Acyclic := by
    rw [h.table]
    exact hr.acyclic
  refine ⟨⟨fun i m hm => ?_, h.mvars.ge, h.skolems.ge, hs, fun m t ht => ?_⟩,
    ha, fun m ho => ?_, fun m t ht => ?_⟩
  · rwa [h.table]
  · rw [← h.table] at ht
    exact ⟨⟨t, ht⟩, ha.expand_solved ht⟩
  · rw [h.table] at ho
    exact hpassed m (hr.owned m ho)
  · rw [h.table] at ht
    exact (hr.solutions m t ht).mono hpassed fun _ _ => trivial

theorem log (hr : r.InOrder) (e : Event) : r.Evolves (Run.log e r).2 :=
  hr.agrees (r.agrees_log e) (r.stamps_log e).ge

theorem openAll (hr : r.InOrder) (x : String) (body new : Ty) :
    r.Evolves (RankN.openAll x body new r).2 :=
  hr.agrees (subst_restamped x new body r).agrees (stamps_le_subst x new body r)

theorem newArrow (hr : r.InOrder) (p q : Ty) : r.Evolves (Run.newArrow p q r).2 :=
  hr.agrees ⟨rfl, rfl, rfl⟩ (Nat.le_succ _)

theorem newSkolem (hr : r.InOrder) : r.Evolves (Run.newSkolem r).2 where
  mvarAt _ _ h := h
  mvars := le_rfl
  skolems := Nat.le_succ _
  stamps := le_rfl
  solved _ t ht := ⟨⟨t, ht⟩, hr.acyclic.expand_solved ht⟩
  inOrder := ⟨hr.acyclic, hr.owned, hr.solutions⟩

/-- The next metavariable is none of those that the run has passed. -/
theorem ne_newMVar (h : r.Passed m) (scope : Scope) : m ≠ (Run.newMVar scope r).1 := by
  rintro rfl
  rcases h with h | h
  · exact Nat.lt_irrefl _ h
  · exact Int.lt_irrefl _ h

theorem unsolved_newMVar (hr : r.InOrder) (scope : Scope) :
    (Run.newMVar scope r).2.table.solution? (Run.newMVar scope r).1 = none := by
  rw [r.solution?_newMVar]
  cases hs : r.table.solution? (Run.newMVar scope r).1 with
  | none => rfl
  | some t => exact absurd rfl (ne_newMVar (hr.owned _ (Table.owns_of_solution? hs)) scope)

/-- Allocating a metavariable. -/
theorem newMVar (hr : r.InOrder) (scope : Scope) : r.Evolves (Run.newMVar scope r).2 := by
  have hsol := r.solution?_newMVar scope
  have ha := hr.acyclic.congr hsol
  have hpassed : ∀ m, r.Passed m → (Run.newMVar scope r).2.Passed m := fun m hm =>
    hm.mono (Nat.le_succ _) (Nat.le_succ _)
  refine ⟨⟨fun i m hm => ?_, Nat.le_succ _, le_rfl, Nat.le_succ _, fun m t ht => ?_⟩,
    ha, fun m ho => ?_, fun m t ht => ?_⟩
  · exact Table.mvarAt?_push_of_eq_some hm _
  · rw [← hsol] at ht
    exact ⟨⟨t, ht⟩, ha.expand_solved ht⟩
  · rcases Table.eq_or_owns_of_owns_push ho with rfl | ho
    · exact Ty.leaves_mvar.1 (Ty.passed_newMVar r scope)
    · exact hpassed m (hr.owned m ho)
  · rw [hsol] at ht
    exact (hr.solutions m t ht).mono hpassed fun _ _ => trivial

/-- Solving a metavariable by a type that does not lead to it. -/
theorem solved (hr : r.InOrder) (ho : r.table.owns m) (hm : r.table.solution? m = none)
    (ht : t.Passed r) (hreach : ¬ r.table.Reaches t m) : r.Evolves (r.solved m t) := by
  have ha : (r.solved m t).table.Acyclic := hr.acyclic.write ho hreach
  refine ⟨⟨fun i k hk => ?_, le_rfl, le_rfl, le_rfl, fun k u hu => ?_⟩,
    ha, fun k hk => ?_, fun k u hu => ?_⟩
  · exact (Table.mvarAt?_write ..).trans hk
  · have hu' := (r.extends_solved hm t).solution k u hu
    exact ⟨⟨u, hu'⟩, ha.expand_solved hu'⟩
  · exact hr.owned k ((Table.owns_write ..).symm.trans hk)
  · rcases Run.solution?_solved ho hu with ⟨-, rfl⟩ | hu
    · exact ht
    · exact hr.solutions k u hu

/-- Pruning. -/
theorem prune (hr : r.InOrder) (t : Ty) : r.Evolves (RankN.prune t r).2 := by
  obtain ⟨-, hsh, hframe⟩ := prune_spec hr.acyclic t
  have hstamps := stamps_le_prune t r
  have hmvars : (RankN.prune t r).2.mvars = r.mvars := by rw [hframe]
  have hskolems : (RankN.prune t r).2.skolems = r.skolems := by rw [hframe]
  have hpassed : ∀ m, r.Passed m → (RankN.prune t r).2.Passed m := fun m hm =>
    hm.mono hstamps hmvars.ge
  refine ⟨⟨fun i m hm => ?_, hmvars.ge, hskolems.ge, hstamps, fun m u hu => ?_⟩,
    hsh.acyclic hr.acyclic, fun m ho => ?_, fun m u hu => ?_⟩
  · exact (hsh.mvarAt i).trans hm
  · refine ⟨hsh.solved hu, ?_⟩
    rw [hsh.expand, hsh.expand, hr.acyclic.expand_solved hu]
  · exact hpassed m (hr.owned m ((hsh.owns m).1 ho))
  · exact (hsh.leaves _ _ hr.solutions m u hu).mono hpassed fun _ _ => trivial

end Run.InOrder

/-! ## Actions -/

namespace Action

variable {ε α β : Type} {E : Stop ε → Prop} {x : Action ε α} {f : α → Action ε β} {r r₁ : Run}
  {Q Q' : α → Run → Prop}

/-- However the action ends, it leaves a run in order that continues the first one. -/
def Evolves (E : Stop ε → Prop) (x : Action ε α) (r : Run) (Q : α → Run → Prop) : Prop :=
  x.Ensures r (fun a r' => r.Evolves r' ∧ Q a r') fun stop r' => r.Evolves r' ∧ E stop

theorem Evolves.after (he : r.Evolves r₁) (h : x.Evolves E r₁ Q) :
    x.Ensures r₁ (fun a r' => r.Evolves r' ∧ Q a r') fun stop r' => r.Evolves r' ∧ E stop :=
  h.mono (fun _ _ h => ⟨he.trans h.1, h.2⟩) fun _ _ h => ⟨he.trans h.1, h.2⟩

theorem Evolves.mono (h : x.Evolves E r Q) (hQ : ∀ a r', r.Evolves r' → Q a r' → Q' a r') :
    x.Evolves E r Q' :=
  Ensures.mono h (fun a r' h => ⟨h.1, hQ a r' h.1 h.2⟩) fun _ _ h => h

theorem Evolves.bind {Q' : β → Run → Prop} (hx : x.Evolves E r Q)
    (hf : ∀ a r', r.Evolves r' → Q a r' → (f a).Evolves E r' Q') : (x >>= f).Evolves E r Q' :=
  ensures_bind.2 <| Ensures.mono hx (fun a r' h => (hf a r' h.1 h.2).after h.1) fun _ _ h => h

theorem evolves_pure {a : α} (hr : r.InOrder) (ha : Q a r) :
    (pure a : Action ε α).Evolves E r Q := ensures_pure.2 ⟨.refl hr, ha⟩

theorem evolves_throw {stop : Stop ε} (hr : r.InOrder) (h : E stop) :
    (throw stop : Action ε α).Evolves E r Q := ensures_throw.2 ⟨.refl hr, h⟩

theorem evolves_get_bind {f : Run → Action ε α} (h : (f r).Evolves E r Q) :
    (get >>= f).Evolves E r Q := ensures_bind.2 (ensures_get.2 h)

/-- A step that cannot stop comes first. -/
theorem evolves_lift_bind {y : StateM Run β} {f : β → Action ε α} (he : r.Evolves (y r).2)
    (h : (f (y r).1).Evolves E (y r).2 Q) : (liftM y >>= f : Action ε α).Evolves E r Q :=
  ensures_bind.2 (ensures_lift.2 (h.after he))

theorem evolves_newArrow {p q : Ty} (hr : r.InOrder) (hp : p.Passed r) (hq : q.Passed r) :
    (liftM (Run.newArrow p q) : Action ε Ty).Evolves E r fun t r' => t.Passed r' := by
  have he := hr.newArrow p q
  exact ensures_lift.2 ⟨he, Ty.leaves_arrow.2 ⟨he.passed hp, he.passed hq⟩⟩

end Action

/-! ## The solver -/

section

variable {r : Run} {m : MVar} {t a b : Ty} {scope : Scope}

/-- Nothing is asked of why an action stops. -/
abbrev Stop.any {ε : Type} (_ : Stop ε) : Prop := True

theorem mismatch_evolves {α : Type} (hr : r.InOrder) (a b : Ty) (Q : α → Run → Prop) :
    (mismatch a b : Solve α).Evolves Stop.any r Q := by
  have ha := hr.prune a
  exact evolves_lift_bind ha (evolves_lift_bind (ha.inOrder.prune b)
    (evolves_throw (ha.inOrder.prune b).inOrder trivial))

/-- Opening a quantifier brings in no metavariable but those of the type put in. -/
theorem evolves_openAll_bind {ε α : Type} {E : Stop ε → Prop} {f : Ty → Action ε α}
    {Q : α → Run → Prop} (hr : r.InOrder) {n : Nat} {x : String} {body new : Ty}
    (hall : (Ty.all n x body).Passed r) (hnew : new.Passed r)
    (h : ∀ t r', r.Evolves r' → r'.mvars = r.mvars → t.Passed r' → (f t).Evolves E r' Q) :
    (liftM (openAll x body new) >>= f : Action ε α).Evolves E r Q := by
  have he := hr.openAll x body new
  have ht : (openAll x body new r).1.Passed r := leaves_subst hr.solutions hnew (Ty.leaves_all.1 hall)
  exact evolves_lift_bind he (h _ _ he (subst_restamped x new body r).mvars (he.passed ht))

/-- A metavariable is solved only by a type that does not lead to it. -/
theorem settle_evolves (hr : r.InOrder) (hm : r.table.solution? m = none) (ht : t.Passed r) :
    (settle m t).Evolves Stop.any r fun _ r' => r'.mvars = r.mvars := by
  apply ensures_settle
  · exact fun why _ => ⟨hr.prune t, trivial⟩
  · intro hfree
    apply ensures_assign_of_unsolved hm
    · exact fun why => ⟨.refl hr, trivial⟩
    · intro ho
      have hocc := ((obstacle?_eq_none hr.acyclic hm).1 hfree).1
      have hreach : ¬ r.table.Reaches t m := fun h =>
        hocc (hr.acyclic.mem_mvars_expand.2 ⟨h, hm⟩)
      exact ⟨hr.solved ho hm ht hreach, rfl⟩

/-- Unification within `n` steps, however it ends. It allocates no metavariable. -/
def UnifyEvolves (n : Nat) : Prop :=
  ∀ (a b : Ty) (r : Run), r.InOrder → a.Passed r → b.Passed r →
    (unifyWithin n a b).Evolves Stop.any r fun _ r' => r'.mvars = r.mvars

/-- Solving within `n` steps, however it ends. It allocates no metavariable. -/
def SolveEvolves (n : Nat) : Prop :=
  ∀ (m : MVar) (t : Ty) (r : Run), r.InOrder → t.Passed r →
    (solveWithin n m t).Evolves Stop.any r fun _ r' => r'.mvars = r.mvars

theorem UnifyEvolves.both {n : Nat} (ih : UnifyEvolves n) {p p' q q' : Ty} (hr : r.InOrder)
    (hp : p.Passed r) (hp' : p'.Passed r) (hq : q.Passed r) (hq' : q'.Passed r) :
    (do unifyWithin n p p'; unifyWithin n q q' : Solve Unit).Evolves Stop.any r
      fun _ r' => r'.mvars = r.mvars := by
  refine (ih p p' r hr hp hp').bind fun _ r₁ he₁ h₁ => ?_
  exact (ih q q' r₁ he₁.inOrder (he₁.passed hq) (he₁.passed hq')).mono fun _ _ _ h₂ => h₂.trans h₁

/-- A step first records itself. -/
theorem Action.Evolves.of_log {ev : Event} {x : Solve Unit}
    (h : x.Evolves Stop.any (Run.log ev r).2 fun _ r' => r'.mvars = (Run.log ev r).2.mvars)
    (hr : r.InOrder) :
    x.Ensures (Run.log ev r).2 (fun _ r' => r.Evolves r' ∧ r'.mvars = r.mvars)
      fun stop r' => r.Evolves r' ∧ Stop.any stop := by
  refine Evolves.after (hr.log ev) (h.mono fun _ _ _ h => ?_)
  exact h.trans (r.agrees_log ev).mvars

theorem unifyWithin_evolves_step {n : Nat} (hunify : UnifyEvolves n) (hsolve : SolveEvolves n) :
    UnifyEvolves (n + 1) := by
  intro a b r hr ha hb
  have hlog := hr.log (.unify a b)
  have hr₁ := hlog.inOrder
  have ha₁ := hlog.passed ha
  have hb₁ := hlog.passed hb
  apply ensures_unifyWithin
  · exact fun _ => ⟨hlog, (r.agrees_log _).mvars⟩
  · rintro k p q k' p' q' rfl rfl
    rw [Ty.Passed, Ty.leaves_arrow] at ha₁ hb₁
    exact (hunify.both hr₁ ha₁.1 hb₁.1 ha₁.2 hb₁.2).of_log hr
  · rintro k f x k' f' x' rfl rfl
    rw [Ty.Passed, Ty.leaves_app] at ha₁ hb₁
    exact (hunify.both hr₁ ha₁.1 hb₁.1 ha₁.2 hb₁.2).of_log hr
  · rintro k x t k' y u rfl rfl
    refine Evolves.of_log ?_ hr
    have h₂ := hr₁.newSkolem
    apply evolves_lift_bind h₂
    apply evolves_openAll_bind h₂.inOrder (h₂.passed ha₁) (Ty.passed_skolem _ _)
    intro t' r₃ h₃ hm₃ ht'
    apply evolves_openAll_bind h₃.inOrder (h₃.passed (h₂.passed hb₁)) (Ty.passed_skolem _ _)
    intro u' r₄ h₄ hm₄ hu'
    apply (hunify t' u' r₄ h₄.inOrder (h₄.passed ht') hu').mono
    intro _ r' _ hm
    exact hm.trans (hm₄.trans hm₃)
  · rintro m rfl
    exact (hsolve m b _ hr₁ hb₁).of_log hr
  · rintro m rfl
    exact (hsolve m a _ hr₁ ha₁).of_log hr
  · exact fun _ _ => (mismatch_evolves hr₁ a b _).of_log hr

theorem solveWithin_evolves_step {n : Nat} (hunify : UnifyEvolves n) (hsolve : SolveEvolves n) :
    SolveEvolves (n + 1) := by
  intro m t r hr ht
  have hlog := hr.log (.solve m t)
  have hr₁ := hlog.inOrder
  have ht₁ := hlog.passed ht
  apply ensures_solveWithin
  · exact fun _ => ⟨hlog, (r.agrees_log _).mvars⟩
  · intro u hu
    exact (hunify u t _ hr₁ (hlog.passed (hr.solutions m u hu)) ht₁).of_log hr
  · intro m' u _ _ hu
    exact (hsolve m u _ hr₁ (hlog.passed (hr.solutions m' u hu))).of_log hr
  · intro hm _ _
    rw [← r.table_log (.solve m t)] at hm
    exact (settle_evolves hr₁ hm ht₁).of_log hr

/-- **Unification and solving**, with any number of steps. -/
theorem unifyWithin_evolves (n : Nat) : UnifyEvolves n ∧ SolveEvolves n := by
  induction n with
  | zero =>
    refine ⟨fun a b r hr _ _ => ?_, fun m t r hr _ => ?_⟩
    · rw [unifyWithin]
      exact evolves_throw hr trivial
    · rw [solveWithin]
      exact evolves_throw hr trivial
  | succ n ih =>
    exact ⟨unifyWithin_evolves_step ih.1 ih.2, solveWithin_evolves_step ih.1 ih.2⟩

theorem unify_evolves (hr : r.InOrder) (ha : a.Passed r) (hb : b.Passed r) :
    (unify a b).Evolves Stop.any r fun _ r' => r'.mvars = r.mvars :=
  evolves_get_bind ((unifyWithin_evolves _).1 a b r hr ha hb)

theorem solve_evolves (hr : r.InOrder) (ht : t.Passed r) :
    (solve m t).Evolves Stop.any r fun _ r' => r'.mvars = r.mvars :=
  evolves_get_bind ((unifyWithin_evolves _).2 m t r hr ht)

/-- Opening a quantifier at a new skolem constant. -/
theorem evolves_open_skolem {ε α : Type} {E : Stop ε → Prop} {f : Int → Ty → Action ε α}
    {Q : α → Run → Prop} (hr : r.InOrder) {n : Nat} {x : String} {body : Ty}
    (hall : (Ty.all n x body).Passed r)
    (h : ∀ c t r', r.Evolves r' → t.Passed r' → (f c t).Evolves E r' Q) :
    (do
      let c ← Run.newSkolem
      let t ← openAll x body (.skolem c)
      f c t : Action ε α).Evolves E r Q := by
  have h₁ := hr.newSkolem
  apply evolves_lift_bind h₁
  apply evolves_openAll_bind h₁.inOrder (h₁.passed hall) (Ty.passed_skolem _ _)
  intro t r' h₂ _ ht
  exact h _ t r' (h₁.trans h₂) ht

/-- Opening a quantifier at a new metavariable. -/
theorem evolves_open_mvar {ε α : Type} {E : Stop ε → Prop} {f : Ty → Action ε α}
    {Q : α → Run → Prop} (hr : r.InOrder) {n : Nat} {x : String} {body : Ty}
    (hall : (Ty.all n x body).Passed r)
    (h : ∀ t r', r.Evolves r' → t.Passed r' → (f t).Evolves E r' Q) :
    (do
      let m ← Run.newMVar scope
      let t ← openAll x body (.mvar m)
      f t : Action ε α).Evolves E r Q := by
  have h₁ := hr.newMVar scope
  apply evolves_lift_bind h₁
  apply evolves_openAll_bind h₁.inOrder (h₁.passed hall)
  · exact Ty.passed_newMVar r scope
  · intro t r' h₂ _ ht
    exact h t r' (h₁.trans h₂) ht

theorem subsumeWithin_evolves (n : Nat) (hr : r.InOrder) (ha : a.Passed r) (hb : b.Passed r) :
    (subsumeWithin n scope a b).Evolves Stop.any r fun _ _ => True := by
  induction n generalizing scope a b r with
  | zero =>
    rw [subsumeWithin]
    exact evolves_throw hr trivial
  | succ n ih =>
    have hlog := hr.log (.subsume a b)
    have hr₁ := hlog.inOrder
    have ha₁ := hlog.passed ha
    have hb₁ := hlog.passed hb
    apply ensures_subsumeWithin
    · rintro k x t rfl
      refine Evolves.after hlog (evolves_open_skolem hr₁ hb₁ fun c t' r₂ h₂ ht' => ?_)
      exact ih h₂.inOrder (h₂.passed ha₁) ht'
    · rintro k x t rfl
      refine Evolves.after hlog (evolves_open_mvar hr₁ ha₁ fun t' r₂ h₂ ht' => ?_)
      exact ih h₂.inOrder ht' (h₂.passed hb₁)
    · intro _ _
      exact Evolves.after hlog ((unify_evolves hr₁ ha₁ hb₁).mono fun _ _ _ _ => trivial)

theorem subsume_evolves (hr : r.InOrder) (ha : a.Passed r) (hb : b.Passed r) :
    (subsume scope a b).Evolves Stop.any r fun _ _ => True :=
  evolves_get_bind (subsumeWithin_evolves _ hr ha hb)

/-- The arrow that a metavariable is solved by is between new metavariables, so it does not lead
back. -/
theorem exposeMVar_evolves (hr : r.InOrder) (hm : r.table.solution? m = none) (hp : r.Passed m) :
    (exposeMVar m).Evolves Stop.any r fun ex r' => ex.param.Passed r' ∧ ex.rest.Passed r' := by
  have h₁ := hr.newMVar m.scope
  have h₂ := h₁.inOrder.newMVar m.scope
  set p := (Run.newMVar m.scope r).1
  set q := (Run.newMVar m.scope (Run.newMVar m.scope r).2).1
  set r₂ := (Run.newMVar m.scope (Run.newMVar m.scope r).2).2
  have hmp : m ≠ p := Run.InOrder.ne_newMVar hp m.scope
  have hmq : m ≠ q := Run.InOrder.ne_newMVar (hp.mono h₁.stamps h₁.mvars) m.scope
  have hpu : r₂.table.solution? p = none :=
    (Run.solution?_newMVar _ m.scope p).trans (hr.unsolved_newMVar m.scope)
  have hqu : r₂.table.solution? q = none := h₁.inOrder.unsolved_newMVar m.scope
  have hpp : (Ty.mvar p).Passed r₂ := h₂.passed (Ty.passed_newMVar r m.scope)
  have hqp : (Ty.mvar q).Passed r₂ := Ty.passed_newMVar _ m.scope
  refine evolves_lift_bind h₁ (evolves_lift_bind h₂ ?_)
  have h₃ := h₂.inOrder.newArrow (.mvar p) (.mvar q)
  refine evolves_lift_bind h₃ ?_
  have hmu : r₂.table.solution? m = none :=
    (Run.solution?_newMVar _ m.scope m).trans ((r.solution?_newMVar m.scope m).trans hm)
  have hreach : ¬ r₂.table.Reaches (.arrow r₂.stamps (.mvar p) (.mvar q)) m := by
    rw [Table.reaches_arrow, Table.reaches_unsolved hpu, Table.reaches_unsolved hqu]
    exact fun h => h.elim hmp hmq
  have hassign : (assign m (.arrow r₂.stamps (.mvar p) (.mvar q))).Evolves Stop.any
      (Run.newArrow (.mvar p) (.mvar q) r₂).2 fun _ _ => True := by
    apply ensures_assign_of_unsolved (r := (Run.newArrow (.mvar p) (.mvar q) r₂).2) hmu
    · exact fun _ => ⟨.refl h₃.inOrder, trivial⟩
    · intro ho
      refine ⟨h₃.inOrder.solved ho hmu (h₃.passed ?_) hreach, trivial⟩
      exact Ty.leaves_arrow.2 ⟨hpp, hqp⟩
  refine hassign.bind fun _ r₄ h₄ _ => evolves_pure h₄.inOrder ?_
  exact ⟨h₄.passed (h₃.passed hpp), h₄.passed (h₃.passed hqp)⟩

theorem exposeWithin_evolves (args : List Expr) (n : Nat) (hr : r.InOrder) (ht : t.Passed r) :
    (exposeWithin scope args n t).Evolves Stop.any r fun ex r' =>
      ex.param.Passed r' ∧ ex.rest.Passed r' := by
  induction n generalizing t r with
  | zero =>
    rw [exposeWithin]
    exact evolves_throw hr trivial
  | succ n ih =>
    apply ensures_exposeWithin
    · rintro k x body rfl
      exact evolves_open_mvar hr ht fun t' r₁ h₁ ht' => ih h₁.inOrder ht'
    · rintro k p q rfl
      exact ⟨.refl hr, Ty.leaves_arrow.1 ht⟩
    · rintro m u rfl hu
      exact ih hr (hr.solutions m u hu)
    · rintro m rfl hm
      exact exposeMVar_evolves hr hm (Ty.leaves_mvar.1 ht)
    · exact fun _ _ _ => ⟨hr.prune t, trivial⟩

theorem expose_evolves (args : List Expr) (hr : r.InOrder) (ht : t.Passed r) :
    (expose scope args t).Evolves Stop.any r fun ex r' =>
      ex.param.Passed r' ∧ ex.rest.Passed r' :=
  evolves_get_bind (exposeWithin_evolves args _ hr ht)

theorem skolemizeWithin_evolves (e : Expr) (n : Nat) (hr : r.InOrder) (ht : t.Passed r) :
    (skolemizeWithin e n scope t).Evolves Stop.any r fun p r' => p.2.Passed r' := by
  induction n generalizing scope t r with
  | zero =>
    rw [skolemizeWithin_zero]
    exact evolves_throw hr trivial
  | succ n ih =>
    have hlog := hr.log (.check e t)
    have hr₁ := hlog.inOrder
    have ht₁ := hlog.passed ht
    apply ensures_skolemizeWithin
    · rintro m u rfl hu
      exact (ih hr₁ (hlog.passed (hr.solutions m u hu))).after hlog
    · rintro k x body rfl
      refine Evolves.after hlog (evolves_open_skolem hr₁ ht₁ fun c t' r₂ h₂ ht' => ?_)
      exact ih h₂.inOrder ht'
    · exact fun _ _ => ⟨hlog, ht₁⟩

theorem skolemize_evolves (e : Expr) (hr : r.InOrder) (ht : t.Passed r) :
    (skolemize e scope t).Evolves Stop.any r fun p r' => p.2.Passed r' :=
  evolves_get_bind (skolemizeWithin_evolves e _ hr ht)

end

end RankN
