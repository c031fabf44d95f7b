import RankN.Proofs.Totality

/-!
# Which errors there are

The solver checks, where it writes a solution, that the metavariable is one of the run, that it has
no solution yet, and that the type is there at all. None of these checks ever fails in an inference
whose declarations and annotations are whole types without metavariables. Skolem constants may occur
in them, allocated or not, and types of unknown kind.

**Proper types** have no absent part, and mention metavariables of the run only. A run is *proper*
if its solutions are. Whatever inference does to a proper run leaves a proper run, in which
everything proper is proper still (`Run.Grows`). In a proper run the checks succeed: a metavariable
that is solved was seen to be unsolved just before, and was met in a proper type.

`x.Regular P r Q` says that `x` stops only with an error in `P`, or for lack of steps. The steps
suffice, as `RankN.Proofs.Totality` shows. Main result: `infer_regular`.
-/

namespace RankN

open RankN.Action

/-! ## Proper types -/

/-- The type has no absent part, and all its metavariables are in the table. -/
structure Ty.Proper (tb : Table) (t : Ty) : Prop where
  complete : t.Complete
  owned : t.Leaves (fun m => tb.owns m) fun _ => True

/-- A whole type without metavariables. -/
def Ty.Closed (t : Ty) : Prop := t.Proper {}

instance (tb : Table) (t : Ty) : Decidable (t.Proper tb) :=
  decidable_of_iff (t.Complete ∧ t.Leaves (fun m => tb.owns m) fun _ => True)
    ⟨fun h => ⟨h.1, h.2⟩, fun h => ⟨h.1, h.2⟩⟩

instance (t : Ty) : Decidable t.Closed := inferInstanceAs (Decidable (t.Proper _))

namespace Ty

variable {tb tb' : Table} {t p q f a : Ty} {n : Nat} {x : String} {m : MVar}

theorem Proper.mono (h : t.Proper tb) (hle : ∀ m, tb.owns m → tb'.owns m) : t.Proper tb' :=
  ⟨h.complete, h.owned.mono hle fun _ h => h⟩

theorem proper_arrow : (Ty.arrow n p q).Proper tb ↔ p.Proper tb ∧ q.Proper tb := by
  constructor
  · rintro ⟨⟨hp, hq⟩, ho⟩
    obtain ⟨hpo, hqo⟩ := leaves_arrow.1 ho
    exact ⟨⟨hp, hpo⟩, hq, hqo⟩
  · rintro ⟨hp, hq⟩
    exact ⟨⟨hp.complete, hq.complete⟩, leaves_arrow.2 ⟨hp.owned, hq.owned⟩⟩

theorem proper_app : (Ty.app n f a).Proper tb ↔ f.Proper tb ∧ a.Proper tb := by
  constructor
  · rintro ⟨⟨hf, ha⟩, ho⟩
    obtain ⟨hfo, hao⟩ := leaves_app.1 ho
    exact ⟨⟨hf, hfo⟩, ha, hao⟩
  · rintro ⟨hf, ha⟩
    exact ⟨⟨hf.complete, ha.complete⟩, leaves_app.2 ⟨hf.owned, ha.owned⟩⟩

theorem proper_all : (Ty.all n x t).Proper tb ↔ t.Proper tb :=
  ⟨fun h => ⟨h.complete, leaves_all.1 h.owned⟩, fun h => ⟨h.complete, leaves_all.2 h.owned⟩⟩

theorem proper_mvar : (Ty.mvar m).Proper tb ↔ tb.owns m :=
  ⟨fun h => leaves_mvar.1 h.owned, fun h => ⟨trivial, leaves_mvar.2 h⟩⟩

theorem proper_skolem (tb : Table) (c : Int) : (Ty.skolem c).Proper tb :=
  ⟨trivial, leaves_skolem.2 trivial⟩

theorem Proper.ne_absent (h : t.Proper tb) : t ≠ .absent := by
  rintro rfl
  exact h.complete

end Ty

/-! ## Substitution -/

section

variable {enter : Ty → StateM Run Ty} {x : String} {new t : Ty} {r : Run}

theorem complete_substWith (hr : ∀ u r, Run.Restamped r (enter u r).2)
    (he : ∀ u (r : Run), (∀ m t, r.table.solution? m = some t → t.Complete) → u.Complete →
      (enter u r).1.Complete)
    (htb : ∀ m u, r.table.solution? m = some u → u.Complete) (hnew : new.Complete)
    (ht : t.Complete) : (substWith enter x new t r).1.Complete := by
  induction t generalizing r with
  | var y =>
    by_cases hy : y = x
    · simpa [substWith_var, hy] using hnew
    · simp [substWith_var, hy, Ty.Built]
  | all n y body ih =>
    by_cases hy : y = x
    · subst hy
      rwa [substWith_all_self]
    · rw [substWith_all_of_ne n hy]
      exact ih htb ht
  | arrow n p q ihp ihq =>
    have hp : Run.Restamped r (substWith enter x new p r).2 := substWith_restamped hr p r
    rw [substWith_arrow]
    exact ⟨ihp htb ht.1, ihq (hp.table ▸ htb) ht.2⟩
  | app n f a ihf iha =>
    have hf : Run.Restamped r (substWith enter x new f r).2 := substWith_restamped hr f r
    rw [substWith_app]
    exact ⟨ihf htb ht.1, iha (hf.table ▸ htb) ht.2⟩
  | mvar m =>
    cases hs : r.table.solution? m with
    | none => rwa [substWith_mvar_none hs]
    | some u => rw [substWith_mvar_some hs]; exact he u r htb (htb m u hs)
  | skolem | unknown | absent => exact ht

theorem complete_subst (htb : ∀ m u, r.table.solution? m = some u → u.Complete)
    (hnew : new.Complete) (ht : t.Complete) : (subst x new t r).1.Complete := by
  have main : ∀ n (t : Ty) (r : Run), (∀ m u, r.table.solution? m = some u → u.Complete) →
      t.Complete → (substWithin x new n t r).1.Complete := by
    intro n
    induction n with
    | zero => exact fun t r _ ht => ht
    | succ n ih =>
      exact fun t r htb ht => complete_substWith (substWithin_restamped x new n) ih htb hnew ht
  exact main _ t r htb ht

end

/-! ## Expansion -/

section

variable {tb : Table} {t : Ty}

theorem complete_expandWith {enter : Ty → Ty}
    (he : ∀ m u, tb.solution? m = some u → (enter u).Complete) (ht : t.Complete) :
    (tb.expandWith enter t).Complete := by
  induction t with
  | all n x body ih => exact ih ht
  | arrow n p q ihp ihq => exact ⟨ihp ht.1, ihq ht.2⟩
  | app n f a ihf iha => exact ⟨ihf ht.1, iha ht.2⟩
  | mvar m =>
    simp only [Table.expandWith]
    cases hs : tb.solution? m with
    | none => exact ht
    | some u => exact he m u hs
  | _ => exact ht

/-- A type without absent part expands to one, if no solution has an absent part. -/
theorem complete_expand (htb : ∀ m u, tb.solution? m = some u → u.Complete) (ht : t.Complete) :
    (tb.expand t).Complete := by
  have main : ∀ n (t : Ty), t.Complete → (tb.expandWithin n t).Complete := by
    intro n
    induction n with
    | zero => exact fun t ht => Ty.built_plain.2 ht
    | succ n ih => exact fun t ht => complete_expandWith (fun m u hu => ih u (htb m u hu)) ht
  exact main _ t ht

end

/-! ## Proper runs -/

/-- Metavariables are counted correctly, and solutions are proper. -/
structure Run.Proper (r : Run) : Prop where
  count : r.mvars = r.table.size
  solutions : ∀ m t, r.table.solution? m = some t → t.Proper r.table

/-- The run `r'` is proper and has all metavariables of `r`. -/
structure Run.Grows (r r' : Run) : Prop where
  proper : r'.Proper
  owns : ∀ m, r.table.owns m → r'.table.owns m

namespace Run

variable {r r' r'' : Run} {t : Ty} {m : MVar}

theorem Empty.proper (h : r.Empty) : r.Proper where
  count := by rw [h.mvars, h.table]; rfl
  solutions m t ht := by simp [h.table] at ht

theorem Grows.refl (hr : r.Proper) : r.Grows r := ⟨hr, fun _ h => h⟩

theorem Grows.trans (h : r.Grows r') (h' : r'.Grows r'') : r.Grows r'' :=
  ⟨h'.proper, fun m hm => h'.owns m (h.owns m hm)⟩

theorem Grows.ty (h : r.Grows r') (ht : t.Proper r.table) : t.Proper r'.table := ht.mono h.owns

/-- Whatever leaves the table alone. -/
theorem Proper.agrees (hr : r.Proper) (h : r.Agrees r') : r.Grows r' := by
  refine ⟨⟨by rw [h.mvars, h.table, hr.count], ?_⟩, fun m hm => ?_⟩
  · rw [h.table]
    exact hr.solutions
  · rwa [h.table]

theorem Proper.log (hr : r.Proper) (e : Event) : r.Grows (Run.log e r).2 :=
  hr.agrees (r.agrees_log e)

theorem Proper.newSkolem (hr : r.Proper) : r.Grows (Run.newSkolem r).2 :=
  ⟨⟨hr.count, hr.solutions⟩, fun _ h => h⟩

theorem Proper.newMVar (hr : r.Proper) (scope : Scope) : r.Grows (Run.newMVar scope r).2 := by
  have howns : ∀ m, r.table.owns m → (Run.newMVar scope r).2.table.owns m := fun m hm =>
    Table.owns_push_of_owns hm
  refine ⟨⟨?_, fun m t ht => ?_⟩, howns⟩
  · show r.mvars + 1 = (r.table.push _).size
    rw [Table.size_push, hr.count]
  · rw [r.solution?_newMVar] at ht
    exact (hr.solutions m t ht).mono howns

theorem Proper.owns_newMVar (hr : r.Proper) (scope : Scope) :
    (Run.newMVar scope r).2.table.owns (Run.newMVar scope r).1 :=
  Table.owns_push_self r.table (congrArg Int.ofNat hr.count)

/-- Solving a metavariable by a proper type. -/
theorem Proper.solved (hr : r.Proper) (ho : r.table.owns m) (ht : t.Proper r.table) :
    r.Grows (r.solved m t) := by
  have howns : ∀ k, r.table.owns k → (r.solved m t).table.owns k := fun k hk =>
    (Table.owns_write ..).trans hk
  refine ⟨⟨hr.count.trans (Table.size_write ..).symm, fun k u hu => ?_⟩, howns⟩
  rcases Run.solution?_solved ho hu with ⟨-, rfl⟩ | hu
  · exact ht.mono howns
  · exact (hr.solutions k u hu).mono howns

theorem Proper.openAll (hr : r.Proper) {n : Nat} {x : String} {body new : Ty}
    (hall : (Ty.all n x body).Proper r.table) (hnew : new.Proper r.table) :
    r.Grows (RankN.openAll x body new r).2 ∧
      (RankN.openAll x body new r).1.Proper (RankN.openAll x body new r).2.table := by
  have hg := hr.agrees (subst_restamped x new body r).agrees
  have hbody := Ty.proper_all.1 hall
  refine ⟨hg, hg.ty ⟨?_, ?_⟩⟩
  · exact complete_subst (fun m u hu => (hr.solutions m u hu).complete) hnew.complete hbody.complete
  · exact leaves_subst (fun m u hu => (hr.solutions m u hu).owned) hnew.owned hbody.owned

end Run

/-! ## Regular actions -/

/-- The error is about the expression and its types, not about how the solver keeps its table. -/
def TypeError.IsTyping : TypeError → Prop
  | .unbound _ | .mismatch .. | .escape .. | .notFunction .. | .unsynthesizable _ => True
  | _ => False

/-- An error as `P` says, or no more steps. -/
def Stop.Regular {ε : Type} (P : ε → Prop) : Stop ε → Prop
  | .error why => P why
  | .fault f => f = .cyclic

namespace Action

variable {ε α β : Type} {P : ε → Prop} {x : Action ε α} {f : α → Action ε β} {r r₁ : Run}
  {Q Q' : α → Run → Prop}

/-- The action leaves a proper run with all metavariables of the first one, or stops with an error
as `P` says, or for lack of steps. -/
def Regular (P : ε → Prop) (x : Action ε α) (r : Run) (Q : α → Run → Prop) : Prop :=
  x.Ensures r (fun a r' => r.Grows r' ∧ Q a r') fun stop _ => stop.Regular P

theorem Regular.after (hg : r.Grows r₁) (h : x.Regular P r₁ Q) :
    x.Ensures r₁ (fun a r' => r.Grows r' ∧ Q a r') fun stop _ => stop.Regular P :=
  Ensures.mono h (fun _ _ h => ⟨hg.trans h.1, h.2⟩) fun _ _ h => h

theorem Regular.bind {Q' : β → Run → Prop} (hx : x.Regular P r Q)
    (hf : ∀ a r', r.Grows r' → Q a r' → (f a).Regular P r' Q') : (x >>= f).Regular P r Q' :=
  ensures_bind.2 <| Ensures.mono hx (fun a r' h => (hf a r' h.1 h.2).after h.1) fun _ _ h => h

theorem regular_pure {a : α} (hr : r.Proper) (ha : Q a r) :
    (pure a : Action ε α).Regular P r Q := ensures_pure.2 ⟨.refl hr, ha⟩

theorem regular_throw {stop : Stop ε} (h : stop.Regular P) :
    (throw stop : Action ε α).Regular P r Q := ensures_throw.2 h

theorem regular_get_bind {f : Run → Action ε α} (h : (f r).Regular P r Q) :
    (get >>= f).Regular P r Q := ensures_bind.2 (ensures_get.2 h)

theorem regular_lift_bind {y : StateM Run β} {f : β → Action ε α} (hg : r.Grows (y r).2)
    (h : (f (y r).1).Regular P (y r).2 Q) : (liftM y >>= f : Action ε α).Regular P r Q :=
  ensures_bind.2 (ensures_lift.2 (h.after hg))

variable {n : Nat} {z : String} {body : Ty} {scope : Scope}

/-- Opening a quantifier at a new skolem constant. -/
theorem regular_open_skolem {f : Int → Ty → Action ε α} (hr : r.Proper)
    (hall : (Ty.all n z body).Proper r.table)
    (h : ∀ c t r', r.Grows r' → t.Proper r'.table → (f c t).Regular P r' Q) :
    (do
      let c ← Run.newSkolem
      let t ← openAll z body (.skolem c)
      f c t : Action ε α).Regular P r Q := by
  have h₁ := hr.newSkolem
  obtain ⟨h₂, ht⟩ := h₁.proper.openAll (h₁.ty hall) (Ty.proper_skolem _ (Run.newSkolem r).1)
  exact regular_lift_bind h₁ (regular_lift_bind h₂ (h _ _ _ (h₁.trans h₂) ht))

/-- Opening a quantifier at a new metavariable. -/
theorem regular_open_mvar {f : Ty → Action ε α} (hr : r.Proper)
    (hall : (Ty.all n z body).Proper r.table)
    (h : ∀ t r', r.Grows r' → t.Proper r'.table → (f t).Regular P r' Q) :
    (do
      let m ← Run.newMVar scope
      let t ← openAll z body (.mvar m)
      f t : Action ε α).Regular P r Q := by
  have h₁ := hr.newMVar scope
  obtain ⟨h₂, ht⟩ := h₁.proper.openAll (h₁.ty hall) (Ty.proper_mvar.2 (hr.owns_newMVar scope))
  exact regular_lift_bind h₁ (regular_lift_bind h₂ (h _ _ (h₁.trans h₂) ht))

end Action

/-! ## The solver -/

section

variable {r : Run} {m : MVar} {t a b : Ty} {scope : Scope}

theorem mismatch_regular {α : Type} (a b : Ty) (Q : α → Run → Prop) :
    (mismatch a b : Solve α).Regular TypeError.IsTyping r Q :=
  ensures_bind.2 (ensures_lift.2 (ensures_bind.2 (ensures_lift.2 (ensures_throw.2 trivial))))

/-- A metavariable of the run that has no solution is given one. -/
theorem assign_regular (hr : r.Proper) (ho : r.table.owns m) (hm : r.table.solution? m = none)
    (ht : t.Proper r.table) : (assign m t).Regular TypeError.IsTyping r fun _ _ => True :=
  ensures_assign ho hm (fun h => absurd h ht.ne_absent) fun _ => ⟨hr.solved ho ht, trivial⟩

theorem settle_regular (hr : r.Proper) (ho : r.table.owns m) (hm : r.table.solution? m = none)
    (ht : t.Proper r.table) : (settle m t).Regular TypeError.IsTyping r fun _ _ => True :=
  ensures_settle (fun _ _ => trivial) fun _ => assign_regular hr ho hm ht

/-- Unification within `n` steps is regular. -/
def UnifyRegular (n : Nat) : Prop :=
  ∀ (a b : Ty) (r : Run), r.Proper → a.Proper r.table → b.Proper r.table →
    (unifyWithin n a b).Regular TypeError.IsTyping r fun _ _ => True

/-- Solving a metavariable of the run within `n` steps is regular. -/
def SolveRegular (n : Nat) : Prop :=
  ∀ (m : MVar) (t : Ty) (r : Run), r.Proper → r.table.owns m → t.Proper r.table →
    (solveWithin n m t).Regular TypeError.IsTyping r fun _ _ => True

theorem UnifyRegular.both {n : Nat} (ih : UnifyRegular n) {p p' q q' : Ty} (hr : r.Proper)
    (hp : p.Proper r.table) (hp' : p'.Proper r.table) (hq : q.Proper r.table)
    (hq' : q'.Proper r.table) :
    (do unifyWithin n p p'; unifyWithin n q q' : Solve Unit).Regular TypeError.IsTyping r
      fun _ _ => True :=
  (ih p p' r hr hp hp').bind fun _ r₁ h₁ _ => ih q q' r₁ h₁.proper (h₁.ty hq) (h₁.ty hq')

theorem unifyWithin_regular_step {n : Nat} (hunify : UnifyRegular n) (hsolve : SolveRegular n) :
    UnifyRegular (n + 1) := by
  intro a b r hr ha hb
  have hlog := hr.log (.unify a b)
  have hr₁ := hlog.proper
  have ha₁ := hlog.ty ha
  have hb₁ := hlog.ty hb
  apply ensures_unifyWithin
  · exact fun _ => ⟨hlog, trivial⟩
  · rintro k p q k' p' q' rfl rfl
    rw [Ty.proper_arrow] at ha₁ hb₁
    exact (hunify.both hr₁ ha₁.1 hb₁.1 ha₁.2 hb₁.2).after hlog
  · rintro k f x k' f' x' rfl rfl
    rw [Ty.proper_app] at ha₁ hb₁
    exact (hunify.both hr₁ ha₁.1 hb₁.1 ha₁.2 hb₁.2).after hlog
  · rintro k x t k' y u rfl rfl
    refine Regular.after hlog (regular_open_skolem hr₁ ha₁ fun c t' r₂ h₂ ht' => ?_)
    obtain ⟨h₃, hu'⟩ := h₂.proper.openAll (h₂.ty hb₁) (Ty.proper_skolem _ c)
    exact regular_lift_bind h₃ (hunify t' _ _ h₃.proper (h₃.ty ht') hu')
  · rintro m rfl
    exact (hsolve m b _ hr₁ (Ty.proper_mvar.1 ha₁) hb₁).after hlog
  · rintro m rfl
    exact (hsolve m a _ hr₁ (Ty.proper_mvar.1 hb₁) ha₁).after hlog
  · exact fun _ _ => (mismatch_regular a b _).after hlog

theorem solveWithin_regular_step {n : Nat} (hunify : UnifyRegular n) (hsolve : SolveRegular n) :
    SolveRegular (n + 1) := by
  intro m t r hr ho ht
  have hlog := hr.log (.solve m t)
  have hr₁ := hlog.proper
  have ht₁ := hlog.ty ht
  have ho₁ := hlog.owns m ho
  apply ensures_solveWithin
  · exact fun _ => ⟨hlog, trivial⟩
  · exact fun u hu => (hunify u t _ hr₁ (hlog.ty (hr.solutions m u hu)) ht₁).after hlog
  · intro m' u _ _ hu
    exact (hsolve m u _ hr₁ ho₁ (hlog.ty (hr.solutions m' u hu))).after hlog
  · intro hm _ _
    rw [← r.table_log (.solve m t)] at hm
    exact (settle_regular hr₁ ho₁ hm ht₁).after hlog

/-- **Unification and solving** stop only because types differ, or for lack of steps. -/
theorem unifyWithin_regular (n : Nat) : UnifyRegular n ∧ SolveRegular n := by
  induction n with
  | zero =>
    refine ⟨fun a b r _ _ _ => ?_, fun m t r _ _ _ => ?_⟩
    · rw [unifyWithin]
      exact regular_throw rfl
    · rw [solveWithin]
      exact regular_throw rfl
  | succ n ih =>
    exact ⟨unifyWithin_regular_step ih.1 ih.2, solveWithin_regular_step ih.1 ih.2⟩

theorem unify_regular (hr : r.Proper) (ha : a.Proper r.table) (hb : b.Proper r.table) :
    (unify a b).Regular TypeError.IsTyping r fun _ _ => True :=
  regular_get_bind ((unifyWithin_regular _).1 a b r hr ha hb)

theorem subsumeWithin_regular (n : Nat) (hr : r.Proper) (ha : a.Proper r.table)
    (hb : b.Proper r.table) :
    (subsumeWithin n scope a b).Regular TypeError.IsTyping r fun _ _ => True := by
  induction n generalizing scope a b r with
  | zero =>
    rw [subsumeWithin]
    exact regular_throw rfl
  | succ n ih =>
    have hlog := hr.log (.subsume a b)
    have hr₁ := hlog.proper
    have ha₁ := hlog.ty ha
    have hb₁ := hlog.ty hb
    apply ensures_subsumeWithin
    · rintro k x t rfl
      refine Regular.after hlog (regular_open_skolem hr₁ hb₁ fun c t' r₂ h₂ ht' => ?_)
      exact ih h₂.proper (h₂.ty ha₁) ht'
    · rintro k x t rfl
      refine Regular.after hlog (regular_open_mvar hr₁ ha₁ fun t' r₂ h₂ ht' => ?_)
      exact ih h₂.proper ht' (h₂.ty hb₁)
    · exact fun _ _ => (unify_regular hr₁ ha₁ hb₁).after hlog

theorem subsume_regular (hr : r.Proper) (ha : a.Proper r.table) (hb : b.Proper r.table) :
    (subsume scope a b).Regular TypeError.IsTyping r fun _ _ => True :=
  regular_get_bind (subsumeWithin_regular _ hr ha hb)

/-- Allocating metavariables does not solve the one that is exposed. -/
theorem exposeMVar_regular (hr : r.Proper) (ho : r.table.owns m)
    (hm : r.table.solution? m = none) :
    (exposeMVar m).Regular TypeError.IsTyping r fun ex r' =>
      ex.param.Proper r'.table ∧ ex.rest.Proper r'.table := by
  have h₁ := hr.newMVar m.scope
  have h₂ := h₁.proper.newMVar m.scope
  set p := (Run.newMVar m.scope r).1
  set q := (Run.newMVar m.scope (Run.newMVar m.scope r).2).1
  set r₂ := (Run.newMVar m.scope (Run.newMVar m.scope r).2).2
  have h₃ : r₂.Grows (Run.newArrow (.mvar p) (.mvar q) r₂).2 := h₂.proper.agrees ⟨rfl, rfl, rfl⟩
  have hp : (Ty.mvar p).Proper r₂.table := Ty.proper_mvar.2 (h₂.owns p (hr.owns_newMVar m.scope))
  have hq : (Ty.mvar q).Proper r₂.table := Ty.proper_mvar.2 (h₁.proper.owns_newMVar m.scope)
  have hmu : r₂.table.solution? m = none :=
    (Run.solution?_newMVar _ m.scope m).trans ((r.solution?_newMVar m.scope m).trans hm)
  refine regular_lift_bind h₁ (regular_lift_bind h₂ (regular_lift_bind h₃ ?_))
  have hassign := assign_regular (t := .arrow r₂.stamps (.mvar p) (.mvar q)) h₃.proper
    (h₂.owns m (h₁.owns m ho)) hmu (Ty.proper_arrow.2 ⟨hp, hq⟩)
  exact hassign.bind fun _ r₄ h₄ _ => regular_pure h₄.proper ⟨h₄.ty hp, h₄.ty hq⟩

theorem exposeWithin_regular (args : List Expr) (n : Nat) (hr : r.Proper)
    (ht : t.Proper r.table) :
    (exposeWithin scope args n t).Regular TypeError.IsTyping r fun ex r' =>
      ex.param.Proper r'.table ∧ ex.rest.Proper r'.table := by
  induction n generalizing t r with
  | zero =>
    rw [exposeWithin]
    exact regular_throw rfl
  | succ n ih =>
    apply ensures_exposeWithin
    · rintro k x body rfl
      exact regular_open_mvar hr ht fun t' r₁ h₁ ht' => ih h₁.proper ht'
    · rintro k p q rfl
      exact ⟨.refl hr, Ty.proper_arrow.1 ht⟩
    · rintro m u rfl hu
      exact ih hr (hr.solutions m u hu)
    · rintro m rfl hm
      exact exposeMVar_regular hr (Ty.proper_mvar.1 ht) hm
    · exact fun _ _ _ => trivial

theorem takeAll_regular (args : List Expr) (hr : r.Proper) (ht : t.Proper r.table) :
    (Parameters.takeAll scope t args).Regular TypeError.IsTyping r fun ps r' =>
      (∀ p ∈ ps.1, p.Proper r'.table) ∧ ps.2.Proper r'.table := by
  induction args generalizing t r with
  | nil =>
    rw [Parameters.takeAll_nil]
    exact regular_pure hr ⟨by simp, ht⟩
  | cons arg args ih =>
    rw [Parameters.takeAll_cons]
    refine Regular.bind (regular_get_bind (exposeWithin_regular (arg :: args) _ hr ht))
      fun ex r₁ h₁ hex => ?_
    refine (ih h₁.proper hex.2).bind fun ps r₂ h₂ hps => ?_
    exact regular_pure h₂.proper ⟨List.forall_mem_cons.2 ⟨h₂.ty hex.1, hps.1⟩, hps.2⟩

theorem skolemizeWithin_regular {P : Rejection → Prop} (e : Expr) (n : Nat) (hr : r.Proper)
    (ht : t.Proper r.table) :
    (skolemizeWithin e n scope t).Regular P r fun p r' => p.2.Proper r'.table := by
  induction n generalizing scope t r with
  | zero =>
    rw [skolemizeWithin_zero]
    exact regular_throw rfl
  | succ n ih =>
    have hlog := hr.log (.check e t)
    have hr₁ := hlog.proper
    have ht₁ := hlog.ty ht
    apply ensures_skolemizeWithin
    · rintro m u rfl hu
      exact (ih hr₁ (hlog.ty (hr.solutions m u hu))).after hlog
    · rintro k x body rfl
      refine Regular.after hlog (regular_open_skolem hr₁ ht₁ fun c t' r₂ h₂ ht' => ?_)
      exact ih h₂.proper ht'
    · exact fun _ _ => ⟨hlog, ht₁⟩

end

/-! ## Inference -/

/-- An annotation may also have no type at all, which is an error of its own. -/
def Ty.ProperOrAbsent (tb : Table) (t : Ty) : Prop := t = .absent ∨ t.Proper tb

/-- The expression is rejected for an error about it and its types. -/
def Rejection.IsTyping (rejection : Rejection) : Prop := rejection.error.IsTyping

section

variable {r r' : Run} {names : Names} {scope : Scope} {e : Expr}

theorem Run.Grows.every_names (h : r.Grows r') (hnames : names.Every (·.Proper r.table)) :
    names.Every (·.Proper r'.table) :=
  hnames.mono fun _ ht => h.ty ht

theorem Run.Grows.every_expr (h : r.Grows r') (he : e.Every (·.ProperOrAbsent r.table)) :
    e.Every (·.ProperOrAbsent r'.table) :=
  he.mono fun _ ht => ht.imp_right fun ht => h.ty ht

theorem regular_solving {α : Type} {x : Solve α} {Q : α → Run → Prop}
    (h : x.Regular TypeError.IsTyping r Q) (e : Expr) :
    (solving e x).Regular Rejection.IsTyping r Q := by
  apply ensures_solving.2
  refine Ensures.mono h (fun _ _ h => h) fun stop _ hs => ?_
  cases stop with
  | error why => exact hs
  | fault f => exact hs

/-- A bound name has a type that is there. -/
theorem Names.Every.find?_ne_error (h : names.Every (·.Proper r.table)) (x : String) (f : Fault) :
    names.find? x ≠ .error f := by
  unfold Names.find? Locals.find?
  cases hx : Layer.find? names.locals x with
  | none => simp [bind, Except.bind, pure, Except.pure]
  | some t =>
    have ht := (h.locals x t hx).ne_absent
    cases t <;> simp [bind, Except.bind, pure, Except.pure] at ht ⊢

/-- Checking an expression is regular. -/
def CheckRegular (e : Expr) : Prop :=
  ∀ (names : Names) (scope : Scope) (t : Ty) (r : Run), r.Proper →
    names.Every (·.Proper r.table) → e.Every (·.ProperOrAbsent r.table) → t.Proper r.table →
    (check names scope e t).Regular Rejection.IsTyping r fun _ _ => True

/-- Synthesizing a type is regular. -/
def SynthRegular (e : Expr) : Prop :=
  ∀ (names : Names) (scope : Scope) (r : Run), r.Proper → names.Every (·.Proper r.table) →
    e.Every (·.ProperOrAbsent r.table) →
    (synth names scope e).Regular Rejection.IsTyping r fun t r' => t.Proper r'.table

theorem checkArgs_regular {args : List Expr} {params : List Ty}
    (hargs : ∀ a ∈ args, CheckRegular a) (hr : r.Proper) (hnames : names.Every (·.Proper r.table))
    (hexprs : ∀ a ∈ args, a.Every (·.ProperOrAbsent r.table))
    (hparams : ∀ p ∈ params, p.Proper r.table) :
    (checkArgs names scope args params).Regular Rejection.IsTyping r fun _ _ => True := by
  induction args generalizing params r with
  | nil => exact regular_pure hr trivial
  | cons a args ih =>
    cases params with
    | nil => exact regular_pure hr trivial
    | cons p params =>
      rw [checkArgs_cons]
      simp only [List.forall_mem_cons] at hargs hexprs hparams
      refine (hargs.1 names scope p r hr hnames hexprs.1 hparams.1).bind fun _ r₁ h₁ _ => ?_
      exact ih hargs.2 h₁.proper (h₁.every_names hnames) (fun b hb => h₁.every_expr (hexprs.2 b hb))
        fun q hq => h₁.ty (hparams.2 q hq)

/-- The head of an application is synthesized and its parameters are taken. -/
theorem head_regular {α : Type} {k : List Ty × Ty → Infer α} {Q : α → Run → Prop}
    (hsynth : SynthRegular e.head) (hr : r.Proper) (hnames : names.Every (·.Proper r.table))
    (hexpr : e.Every (·.ProperOrAbsent r.table))
    (h : ∀ ps r', r.Grows r' → (∀ p ∈ ps.1, p.Proper r'.table) → ps.2.Proper r'.table →
      (k ps).Regular Rejection.IsTyping r' Q) :
    (do
      let ft ← synth names scope e.head
      let ps ← solving e (Parameters.takeAll scope ft e.args)
      k ps : Infer α).Regular Rejection.IsTyping r Q := by
  refine (hsynth names scope r hr hnames hexpr.head).bind fun ft r₁ h₁ hft => ?_
  refine (regular_solving (takeAll_regular e.args h₁.proper hft) e).bind fun ps r₂ h₂ hps => ?_
  exact h ps r₂ (h₁.trans h₂) hps.1 hps.2

theorem synth_regular_step (e : Expr)
    (ih : ∀ e', e'.size < e.size → CheckRegular e' ∧ SynthRegular e') : SynthRegular e := by
  intro names scope r hr hnames hexpr
  have hlog := hr.log (.synth e)
  have hr₁ := hlog.proper
  have hnames₁ := hlog.every_names hnames
  have hexpr₁ := hlog.every_expr hexpr
  have hother : (e = .absent ∨ (∃ k, e = .unknown k) ∨ ∃ e', e = .ann e' .absent) →
      (synth names scope e).Regular Rejection.IsTyping r fun t r' => t.Proper r'.table := by
    intro h
    rw [synth_other names scope h]
    exact regular_lift_bind hlog (regular_throw trivial)
  cases e with
  | var x =>
    rw [synth_var]
    refine regular_lift_bind hlog ?_
    split
    · exact regular_pure hr₁ (hnames₁.find ‹_›)
    · exact regular_throw trivial
    · exact absurd ‹_› (hnames₁.find?_ne_error x _)
  | fn x body =>
    rw [synth_fn]
    refine regular_lift_bind hlog ?_
    have h₂ := hr₁.newMVar scope
    have h₃ := h₂.proper.newMVar scope
    have hp := h₃.ty (Ty.proper_mvar.2 (hr₁.owns_newMVar scope))
    have hq := Ty.proper_mvar.2 (h₂.proper.owns_newMVar scope)
    refine regular_lift_bind h₂ (regular_lift_bind h₃ ?_)
    have hcheck := (ih body (by simp only [Expr.size]; omega)).1 (names.insert x (.mvar _)) scope
      (.mvar _) _ h₃.proper ((h₃.every_names (h₂.every_names hnames₁)).insert x hp)
      (h₃.every_expr (h₂.every_expr hexpr₁)) hq
    refine hcheck.bind fun _ r₄ h₄ _ => ?_
    exact ensures_lift.2 ⟨h₄.proper.agrees ⟨rfl, rfl, rfl⟩, Ty.proper_arrow.2 ⟨h₄.ty hp, h₄.ty hq⟩⟩
  | app f a =>
    rw [synth_app]
    refine regular_lift_bind hlog ?_
    refine head_regular (ih _ (Expr.size_head_lt f a)).2 hr₁ hnames₁ hexpr₁ ?_
    intro ps r₂ h₂ hps hrest
    refine (checkArgs_regular (fun b hb => (ih b (Expr.size_lt_of_mem_args hb)).1) h₂.proper
      (h₂.every_names hnames₁) (fun b hb => h₂.every_expr (hexpr₁.arg hb)) hps).bind fun _ r₃ h₃ _ => ?_
    exact regular_pure h₃.proper (h₃.ty hrest)
  | ann e' t =>
    by_cases ht : t = .absent
    · subst ht
      exact hother (.inr (.inr ⟨e', rfl⟩))
    · rw [synth_ann names scope e' ht]
      refine regular_lift_bind hlog ?_
      have ht₁ := (hexpr₁ t List.mem_cons_self).resolve_left ht
      have hcheck := (ih e' (by simp only [Expr.size]; omega)).1 names scope t _ hr₁ hnames₁
        (fun u hu => hexpr₁ u (List.mem_cons_of_mem _ hu)) ht₁
      exact hcheck.bind fun _ r₂ h₂ _ => regular_pure h₂.proper (h₂.ty ht₁)
  | unknown k => exact hother (.inr (.inl ⟨k, rfl⟩))
  | absent => exact hother (.inl rfl)

theorem check_regular_step (e : Expr) (hs : SynthRegular e)
    (ih : ∀ e', e'.size < e.size → CheckRegular e' ∧ SynthRegular e') : CheckRegular e := by
  intro names scope t r hr hnames hexpr ht
  rw [check_eq]
  refine Regular.bind (regular_get_bind (skolemizeWithin_regular e _ hr ht))
    fun ⟨scope, t⟩ r₁ h₁ ht₁ => ?_
  have hr₁ := h₁.proper
  have hnames₁ := h₁.every_names hnames
  have hexpr₁ := h₁.every_expr hexpr
  have hsynth : (do
      let found ← synth names scope e
      solving e (subsume scope found t) : Infer Unit).Regular Rejection.IsTyping r₁
        fun _ _ => True := by
    refine (hs names scope r₁ hr₁ hnames₁ hexpr₁).bind fun found r₂ h₂ hfound => ?_
    exact regular_solving (subsume_regular h₂.proper hfound (h₂.ty ht₁)) e
  cases e with
  | fn x body =>
    cases t with
    | arrow k p q =>
      obtain ⟨hp, hq⟩ := Ty.proper_arrow.1 ht₁
      exact (ih body (by simp only [Expr.size]; omega)).1 _ _ _ r₁ hr₁ (hnames₁.insert x hp) hexpr₁ hq
    | _ => exact hsynth
  | app f a =>
    refine head_regular (ih _ (Expr.size_head_lt f a)).2 hr₁ hnames₁ hexpr₁ ?_
    intro ps r₂ h₂ hps hrest
    refine (regular_solving (subsume_regular h₂.proper hrest (h₂.ty ht₁)) _).bind
      fun _ r₃ h₃ _ => ?_
    have h₁₃ := h₂.trans h₃
    exact checkArgs_regular (fun b hb => (ih b (Expr.size_lt_of_mem_args hb)).1) h₃.proper
      (h₁₃.every_names hnames₁) (fun b hb => h₁₃.every_expr (hexpr₁.arg hb)) fun p hp => h₃.ty (hps p hp)
  | _ => exact hsynth

/-- **Inference stops only with an error about the expression and its types**, or for lack of
steps. -/
theorem infer_calls_regular (e : Expr) : CheckRegular e ∧ SynthRegular e :=
  infer_induction synth_regular_step check_regular_step e

end

/-! ## Whole inferences -/

/-- **Inference always answers, with a type or with an error about the term.** The declarations and
annotations have no absent part and no metavariables; an annotation may also be missing altogether,
and so may parts of the term. Then an inference that starts anew gives a type without absent part, or
one of five errors: a variable has no type, two types differ, a solution would escape its scope, what
is applied is no function, or an expression has no rule. In particular no metavariable is solved that
is not allocated, or solved already, or by an absent type. -/
theorem infer_regular (c : Context) (hc : c.Ready) (e : Expr) (env : Env) (he : e ≠ .absent)
    (henv : env ≠ []) (hannotated : e.Every fun t => t = .absent ∨ t.Closed)
    (hdeclared : env.Every Ty.Closed) :
    (∃ T, (c.infer e env).1 = .ok T ∧ T.Complete) ∨
    ∃ why, (c.infer e env).1 = .error (.error why) ∧ why.IsTyping := by
  have hempty := hc.empty_start e env
  have hr := hempty.proper
  have htypes : ∀ t : Ty, t.Closed → t.Proper (c.start e env).table := by
    intro t ht
    rw [hempty.table]
    exact ht
  have hsynth := (infer_calls_regular e).2 { env } .empty (c.start e env) hr
    ⟨fun x t h => by simp [Layer.find?] at h, fun x t h => htypes t (hdeclared x t h)⟩
    fun t ht => (hannotated t ht).imp_right (htypes t)
  have hevolves := Context.synth_evolves
    (hc.imp_right fun h => Run.Valid.inOrder (P := Ty.Any) h.valid) e env
  have hpruned : (Context.synthPruned env e).Ensures (c.start e env) (fun T _ => T.Complete)
      fun stop _ => stop.Regular Rejection.IsTyping ∧ stop.inTime := by
    apply ensures_bind.2
    apply Ensures.mono (Ensures.and hsynth hevolves)
    · rintro t r ⟨⟨hgrows, ht⟩, he, -⟩
      -- The answer is pruned, which makes of it what it expands to.
      refine ensures_lift.2 (Ty.built_plain.1 ?_)
      rw [plain_prune he.inOrder.acyclic]
      exact complete_expand (fun m u hu => (hgrows.proper.solutions m u hu).complete) ht.complete
    · exact fun stop r h => ⟨h.1, h.2.2⟩
  rcases c.infer_cases he henv with ⟨T, r, hx, h⟩ | ⟨rejection, r, hx, h⟩ | ⟨f, r, hx, h⟩
  · exact .inl ⟨T, by rw [h], hpruned.of_ok hx⟩
  · exact .inr ⟨rejection.error, by rw [h], (hpruned.of_error hx).1⟩
  · obtain ⟨hf, hin⟩ := hpruned.of_error hx
    exact absurd (congrArg Stop.fault hf) hin

/-- A function over a skolem constant that nobody allocated, applied to an argument that is missing
together with its annotation. There is no rule for the argument. -/
theorem infer_regular_missing_argument :
    let e : Expr := .app (.var "f") (.ann .absent .absent)
    let env : Env := [[("f", .arrow 0 (.skolem 7) (.unknown 1 "kind"))]]
    (({} : Context).Ready ∧ (e.Every fun t => t = .absent ∨ t.Closed) ∧ env.Every Ty.Closed) ∧
    (({} : Context).infer e env).1 =
        .error (.error (.unsynthesizable (.ann .absent .absent))) ∧
      TypeError.IsTyping (.unsynthesizable (.ann .absent .absent)) := by
  intro e env
  have hc : ({} : Context).Ready := .inr ⟨rfl, rfl, rfl⟩
  have hannotated : e.Every fun t => t = .absent ∨ t.Closed := by
    show ∀ t ∈ [Ty.absent], _
    simp
  have hdeclared : env.Every Ty.Closed := Env.every_of_declared (by decide)
  refine ⟨⟨hc, hannotated, hdeclared⟩, ?_⟩
  have hanswer : (({} : Context).infer e env).1 =
      .error (.error (.unsynthesizable (.ann .absent .absent))) := by
    decide +kernel
  rcases infer_regular {} hc e env (by simp [e]) (by simp [env]) hannotated hdeclared with
    ⟨T, h, -⟩ | ⟨why, h, htyping⟩
  · rw [hanswer] at h
    cases h
  · rw [hanswer] at h
    cases h
    exact ⟨hanswer, htyping⟩

end RankN
