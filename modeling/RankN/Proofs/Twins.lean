import RankN.Proofs.Pruning
import RankN.Proofs.Restamping
import RankN.Proofs.Steps
import RankN.Proofs.Substitution

/-!
# Runs side by side

Two calls of inference that are given the same things do the same things, even if one of them draws
other stamps, has other events recorded before it or none recorded at all, or meets other names for
bound variables.

**Pairings.** A `Pairing` says what corresponds to what: a stamp in the first run to a stamp in the
second, and which names and expressions stand for each other. Types correspond when they are equal
but for stamps. Two runs are *twins* when their tables correspond, their counters are equal, their
supplies of stamps correspond from here on, and since they were paired they have recorded
corresponding events, if the pairing asks for that.

**Matching actions.** `ρ.Matches x y Q E` says that from twin runs `x` and `y` end alike: both with
answers in `Q`, or both with errors in `E`, or both with the same fault, and they leave twin runs.

**Expressions** are alike (`Pairing.Alike`) when they differ in the names that functions bind, and
each variable stands for the same binder or the same declaration in both.

Main result: `infer_matches`. On alike expressions, inference matches.
-/

namespace RankN

/-- Recording a step changes the trace, if anything. -/
theorem Run.log_snd (e : Event) (r : Run) :
    (Run.log e r).2 = { r with trace := if r.recording then r.trace.push e else r.trace } := by
  unfold Run.log
  split <;> rfl

/-! ## What corresponds -/

/-- How the things that two runs speak of correspond. -/
structure Pairing where
  /-- The stamp in the second run for one in the first. -/
  stamp : Nat → Nat
  injective : stamp.Injective
  /-- Names that stand for each other. -/
  name : String → String → Prop
  /-- Expressions that stand for each other. -/
  expr : Expr → Expr → Prop
  /-- Whether both runs record their steps, or neither. -/
  traced : Prop
  /-- What the first run recorded before. -/
  before : List Event
  /-- What the second run recorded before. -/
  before' : List Event

namespace Pairing

variable (ρ : Pairing)

/-- The type in the second run for one in the first. -/
abbrev ty (t : Ty) : Ty := t.restamp ρ.stamp

/-- The metavariable in the second run for one in the first. -/
abbrev mvar (m : MVar) : MVar := m.restamp ρ.stamp

/-- Corresponding events. -/
inductive Events : Event → Event → Prop
  | check {e e' : Expr} (t : Ty) : ρ.expr e e' → Events (.check e t) (.check e' (ρ.ty t))
  | synth {e e' : Expr} : ρ.expr e e' → Events (.synth e) (.synth e')
  | unify (a b : Ty) : Events (.unify a b) (.unify (ρ.ty a) (ρ.ty b))
  | solve (m : MVar) (t : Ty) : Events (.solve m t) (.solve (ρ.mvar m) (ρ.ty t))
  | subsume (a b : Ty) : Events (.subsume a b) (.subsume (ρ.ty a) (ρ.ty b))

/-- Corresponding errors. -/
inductive Errors : TypeError → TypeError → Prop
  | unbound {x y : String} : ρ.name x y → Errors (.unbound x) (.unbound y)
  | mismatch (a b : Ty) : Errors (.mismatch a b) (.mismatch (ρ.ty a) (ρ.ty b))
  | escape (m : MVar) (t : Ty) (why : Obstacle) :
    Errors (.escape m t why) (.escape (ρ.mvar m) (ρ.ty t) why)
  | notFunction (t : Ty) {args args' : List Expr} : List.Forall₂ ρ.expr args args' →
    Errors (.notFunction t args) (.notFunction (ρ.ty t) args')
  | unsynthesizable {e e' : Expr} : ρ.expr e e' → Errors (.unsynthesizable e) (.unsynthesizable e')
  | notAllocated (m : MVar) : Errors (.notAllocated m) (.notAllocated (ρ.mvar m))
  | absentSolution (m : MVar) : Errors (.absentSolution m) (.absentSolution (ρ.mvar m))
  | alreadySolved (m : MVar) : Errors (.alreadySolved m) (.alreadySolved (ρ.mvar m))

/-- Corresponding rejections. -/
def Rejections (p q : Rejection) : Prop := ρ.Errors p.error q.error ∧ ρ.expr p.invalid q.invalid

/-- Corresponding faults. -/
def Faults : Fault → Fault → Prop
  | .untyped x, .untyped y => ρ.name x y
  | f, g => f = g

/-- Corresponding reasons to stop. -/
inductive Stops {ε : Type} (E : ε → ε → Prop) : Stop ε → Stop ε → Prop
  | error {p q : ε} : E p q → Stops E (.error p) (.error q)
  | fault {f g : Fault} : ρ.Faults f g → Stops E (.fault f) (.fault g)

/-- The second run does what the first one does. -/
structure Twin (r s : Run) : Prop where
  table : s.table = r.table.restamp ρ.stamp
  mvars : s.mvars = r.mvars
  skolems : s.skolems = r.skolems
  recording : ρ.traced → s.recording = r.recording
  /-- The supplies of stamps correspond. -/
  stamps : ∀ k, ρ.stamp (r.stamps + k) = s.stamps + k
  trace : ρ.traced → ∃ l l', r.trace.toList = ρ.before ++ l ∧ s.trace.toList = ρ.before' ++ l' ∧
    List.Forall₂ ρ.Events l l'

/-! ## Steps that cannot stop -/

section

variable {ρ : Pairing} {α β γ δ : Type} {r s : Run}

/-- The second step does what the first one does. -/
def Couples (ρ : Pairing) (x : StateM Run α) (y : StateM Run β) (Q : α → β → Prop) : Prop :=
  ∀ r s, ρ.Twin r s → Q (x r).1 (y s).1 ∧ ρ.Twin (x r).2 (y s).2

theorem ty_mvar (m : MVar) : ρ.ty (.mvar m) = .mvar (ρ.mvar m) := rfl

theorem ty_all (n : Nat) (x : String) (body : Ty) :
    ρ.ty (.all n x body) = .all (ρ.stamp n) x (ρ.ty body) := rfl

theorem Twin.solution? (h : ρ.Twin r s) (m : MVar) :
    s.table.solution? (ρ.mvar m) = (r.table.solution? m).map ρ.ty := by
  rw [h.table, Table.solution?_restamp ρ.injective]

/-- One more stamp is drawn. -/
theorem Twin.freshStamp (h : ρ.Twin r s) :
    ρ.Twin { r with stamps := r.stamps + 1 } { s with stamps := s.stamps + 1 } where
  table := h.table
  mvars := h.mvars
  skolems := h.skolems
  recording := h.recording
  stamps k := by
    have := h.stamps (1 + k)
    rwa [← Nat.add_assoc, ← Nat.add_assoc] at this
  trace := h.trace

theorem Twin.nextStamp (h : ρ.Twin r s) : s.stamps = ρ.stamp r.stamps := (h.stamps 0).symm

theorem Twin.write (h : ρ.Twin r s) (m : MVar) (t : Ty) :
    ρ.Twin { r with table := r.table.write m t }
      { s with table := s.table.write (ρ.mvar m) (ρ.ty t) } where
  table := by rw [h.table]; exact Table.write_restamp ρ.injective ..
  mvars := h.mvars
  skolems := h.skolems
  recording := h.recording
  stamps := h.stamps
  trace := h.trace

theorem couples_log {e e' : Event} (he : ρ.Events e e') :
    ρ.Couples (Run.log e) (Run.log e') fun _ _ => True := by
  intro r s h
  rw [Run.log_snd, Run.log_snd]
  refine ⟨trivial, h.table, h.mvars, h.skolems, h.recording, h.stamps, fun ht => ?_⟩
  obtain ⟨l, l', hl, hl', hevents⟩ := h.trace ht
  rw [h.recording ht]
  cases r.recording with
  | true =>
    refine ⟨l ++ [e], l' ++ [e'], ?_, ?_, List.rel_append hevents (.cons he .nil)⟩
    · simp [hl]
    · simp [hl']
  | false => exact ⟨l, l', hl, hl', hevents⟩

theorem couples_newSkolem : ρ.Couples Run.newSkolem Run.newSkolem fun c d => c = d := by
  intro r s h
  have hc : (r.skolems : Int) = s.skolems := by rw [h.skolems]
  exact ⟨hc, h.table, h.mvars, congrArg (· + 1) h.skolems, h.recording, h.stamps, h.trace⟩

theorem couples_newMVar (scope : Scope) :
    ρ.Couples (Run.newMVar scope) (Run.newMVar scope) fun m k => k = ρ.mvar m := by
  intro r s h
  have hm : (Run.newMVar scope s).1 = ρ.mvar (Run.newMVar scope r).1 := by
    simp [Run.newMVar, Pairing.mvar, MVar.restamp, h.nextStamp, h.mvars]
  have h' := h.freshStamp
  refine ⟨hm, ?_, congrArg (· + 1) h.mvars, h'.skolems, h'.recording, h'.stamps, h'.trace⟩
  show s.table.push (Run.newMVar scope s).1 = (r.table.push (Run.newMVar scope r).1).restamp _
  rw [hm, h.table, Table.push_restamp]

theorem couples_newArrow (p q : Ty) :
    ρ.Couples (Run.newArrow p q) (Run.newArrow (ρ.ty p) (ρ.ty q)) fun t u => u = ρ.ty t := by
  intro r s h
  refine ⟨?_, h.freshStamp⟩
  show Ty.arrow s.stamps _ _ = Ty.arrow (ρ.stamp r.stamps) _ _
  rw [h.nextStamp]

theorem couples_newApp (f a : Ty) :
    ρ.Couples (Run.newApp f a) (Run.newApp (ρ.ty f) (ρ.ty a)) fun t u => u = ρ.ty t := by
  intro r s h
  refine ⟨?_, h.freshStamp⟩
  show Ty.app s.stamps _ _ = Ty.app (ρ.stamp r.stamps) _ _
  rw [h.nextStamp]

theorem couples_newAll (x : String) (body : Ty) :
    ρ.Couples (Run.newAll x body) (Run.newAll x (ρ.ty body)) fun t u => u = ρ.ty t := by
  intro r s h
  refine ⟨?_, h.freshStamp⟩
  show Ty.all s.stamps _ _ = Ty.all (ρ.stamp r.stamps) _ _
  rw [h.nextStamp]

/-- Steps in sequence. -/
theorem Couples.bind {x : StateM Run α} {y : StateM Run β} {f : α → StateM Run γ}
    {g : β → StateM Run δ} {Q : α → β → Prop} {Q' : γ → δ → Prop} (hx : ρ.Couples x y Q)
    (hf : ∀ a b, Q a b → ρ.Couples (f a) (g b) Q') : ρ.Couples (x >>= f) (y >>= g) Q' := by
  intro r s h
  obtain ⟨hab, h'⟩ := hx r s h
  exact hf _ _ hab _ _ h'

theorem couples_pure {a : α} {b : β} {Q : α → β → Prop} (h : Q a b) :
    ρ.Couples (pure a) (pure b) Q := fun _ _ htwin => ⟨h, htwin⟩

/-- A choice that both make alike. -/
theorem couples_ite {x x' : StateM Run α} {y y' : StateM Run β} {Q : α → β → Prop} {p q : Prop}
    [Decidable p] [Decidable q] (hpq : q ↔ p) (hx : ρ.Couples x y Q) (hx' : ρ.Couples x' y' Q) :
    ρ.Couples (if p then x else x') (if q then y else y') Q := by
  by_cases hp : p
  · rwa [if_pos hp, if_pos (hpq.2 hp)]
  · rwa [if_neg hp, if_neg fun h => hp (hpq.1 h)]

/-! ## Pruning and substitution -/

theorem couples_pruneWith {enter enter' : Ty → StateM Run Ty}
    (he : ∀ u, ρ.Couples (enter u) (enter' (ρ.ty u)) fun t u => u = ρ.ty t) (t : Ty) :
    ρ.Couples (pruneWith enter t) (pruneWith enter' (ρ.ty t)) fun t u => u = ρ.ty t := by
  induction t with
  | var | skolem | unknown | absent => exact couples_pure rfl
  | mvar m =>
    intro r s h
    have hs := h.solution? m
    cases hm : r.table.solution? m with
    | none =>
      rw [hm] at hs
      rw [pruneWith_mvar_none hm, ty_mvar, pruneWith_mvar_none hs]
      exact ⟨rfl, h⟩
    | some u =>
      rw [hm] at hs
      obtain ⟨hu, h'⟩ := he u r s h
      rw [pruneWith_mvar_some hm, ty_mvar, pruneWith_mvar_some hs]
      refine ⟨hu, ?_⟩
      simp only [hu]
      exact h'.write m _
  | all n x body ih =>
    refine ih.bind ?_
    rintro body' _ rfl
    exact couples_ite (Ty.restamp_inj ρ.injective) (couples_pure rfl) (couples_newAll x body')
  | arrow n p q ihp ihq =>
    refine ihp.bind ?_
    rintro p' _ rfl
    refine ihq.bind ?_
    rintro q' _ rfl
    refine couples_ite ?_ (couples_pure rfl) (couples_newArrow p' q')
    rw [Ty.restamp_inj ρ.injective, Ty.restamp_inj ρ.injective]
  | app n f a ihf iha =>
    refine ihf.bind ?_
    rintro f' _ rfl
    refine iha.bind ?_
    rintro a' _ rfl
    refine couples_ite ?_ (couples_pure rfl) (couples_newApp f' a')
    rw [Ty.restamp_inj ρ.injective, Ty.restamp_inj ρ.injective]

theorem couples_prune (t : Ty) :
    ρ.Couples (prune t) (prune (ρ.ty t)) fun t u => u = ρ.ty t := by
  have main : ∀ n (t : Ty),
      ρ.Couples (pruneWithin n t) (pruneWithin n (ρ.ty t)) fun t u => u = ρ.ty t := by
    intro n
    induction n with
    | zero => exact fun _ => couples_pure rfl
    | succ n ih => exact couples_pruneWith ih
  intro r s h
  have hhops : s.table.hops = r.table.hops := by rw [h.table, Table.hops_restamp]
  show _ = ρ.ty (pruneWithin r.table.hops t r).1 ∧ ρ.Twin (pruneWithin r.table.hops t r).2 _
  rw [show prune (ρ.ty t) s = pruneWithin s.table.hops (ρ.ty t) s from rfl, hhops]
  exact main _ t r s h

theorem couples_substWith {enter enter' : Ty → StateM Run Ty} {x : String} {new : Ty}
    (he : ∀ u, ρ.Couples (enter u) (enter' (ρ.ty u)) fun t u => u = ρ.ty t) (t : Ty) :
    ρ.Couples (substWith enter x new t) (substWith enter' x (ρ.ty new) (ρ.ty t))
      fun t u => u = ρ.ty t := by
  induction t with
  | skolem | unknown | absent => exact couples_pure rfl
  | var y =>
    intro r s h
    refine ⟨?_, h⟩
    show (if y = x then ρ.ty new else .var y) = ρ.ty (if y = x then new else .var y)
    split <;> rfl
  | mvar m =>
    intro r s h
    have hs := h.solution? m
    cases hm : r.table.solution? m with
    | none =>
      rw [hm] at hs
      rw [substWith_mvar_none hm, ty_mvar, substWith_mvar_none hs]
      exact ⟨rfl, h⟩
    | some u =>
      rw [hm] at hs
      rw [substWith_mvar_some hm, ty_mvar, substWith_mvar_some hs]
      exact he u r s h
  | all n y body ih =>
    refine couples_ite Iff.rfl (couples_pure rfl) (ih.bind ?_)
    rintro body' _ rfl
    exact couples_newAll y body'
  | arrow n p q ihp ihq =>
    refine ihp.bind ?_
    rintro p' _ rfl
    refine ihq.bind ?_
    rintro q' _ rfl
    exact couples_newArrow p' q'
  | app n f a ihf iha =>
    refine ihf.bind ?_
    rintro f' _ rfl
    refine iha.bind ?_
    rintro a' _ rfl
    exact couples_newApp f' a'

theorem couples_openAll (x : String) (body new : Ty) :
    ρ.Couples (openAll x body new) (openAll x (ρ.ty body) (ρ.ty new)) fun t u => u = ρ.ty t := by
  have main : ∀ n (t : Ty), ρ.Couples (substWithin x new n t)
      (substWithin x (ρ.ty new) n (ρ.ty t)) fun t u => u = ρ.ty t := by
    intro n
    induction n with
    | zero => exact fun _ => couples_pure rfl
    | succ n ih => exact couples_substWith ih
  intro r s h
  have hhops : s.table.hops = r.table.hops := by rw [h.table, Table.hops_restamp]
  show _ = ρ.ty (substWithin x new r.table.hops body r).1 ∧
    ρ.Twin (substWithin x new r.table.hops body r).2 _
  rw [show openAll x (ρ.ty body) (ρ.ty new) s =
    substWithin x (ρ.ty new) s.table.hops (ρ.ty body) s from rfl, hhops]
  exact main _ body r s h

/-! ## Matching actions -/

variable {ε : Type} {E : ε → ε → Prop}

/-- Two outcomes that are alike. -/
inductive Ends (ρ : Pairing) (Q : α → β → Prop) (E : ε → ε → Prop) :
    EStateM.Result (Stop ε) Run α → EStateM.Result (Stop ε) Run β → Prop
  | ok {a : α} {b : β} {r s : Run} : Q a b → ρ.Twin r s → Ends ρ Q E (.ok a r) (.ok b s)
  | error {p q : Stop ε} {r s : Run} : ρ.Stops E p q → ρ.Twin r s →
    Ends ρ Q E (.error p r) (.error q s)

/-- From twin runs, the two actions end alike and leave twin runs. -/
def Matches (ρ : Pairing) (x : Action ε α) (y : Action ε β) (Q : α → β → Prop)
    (E : ε → ε → Prop) : Prop :=
  ∀ r s, ρ.Twin r s → ρ.Ends Q E (x r) (y s)

theorem matches_pure {a : α} {b : β} {Q : α → β → Prop} (h : Q a b) :
    ρ.Matches (pure a) (pure b) Q E := fun _ _ htwin => .ok h htwin

theorem matches_throw {p q : Stop ε} {Q : α → β → Prop} (h : ρ.Stops E p q) :
    ρ.Matches (throw p) (throw q) Q E := fun _ _ htwin => .error h htwin

theorem matches_get : ρ.Matches (get : Action ε Run) get ρ.Twin E :=
  fun _ _ htwin => .ok htwin htwin

theorem Couples.matches {x : StateM Run α} {y : StateM Run β} {Q : α → β → Prop}
    (h : ρ.Couples x y Q) : ρ.Matches (liftM x : Action ε α) (liftM y) Q E :=
  fun r s htwin => .ok (h r s htwin).1 (h r s htwin).2

/-- Actions in sequence. -/
theorem Matches.bind {x : Action ε α} {y : Action ε β} {f : α → Action ε γ} {g : β → Action ε δ}
    {Q : α → β → Prop} {Q' : γ → δ → Prop} (hx : ρ.Matches x y Q E)
    (hf : ∀ a b, Q a b → ρ.Matches (f a) (g b) Q' E) : ρ.Matches (x >>= f) (y >>= g) Q' E := by
  intro r s htwin
  have h := hx r s htwin
  show ρ.Ends Q' E (EStateM.bind x f r) (EStateM.bind y g s)
  unfold EStateM.bind
  generalize x r = xr, y s = ys at h
  cases h with
  | ok hab h => exact hf _ _ hab _ _ h
  | error hpq h => exact .error hpq h

/-- A choice that both make alike. -/
theorem matches_ite {x x' : Action ε α} {y y' : Action ε β} {Q : α → β → Prop} {p q : Prop}
    [Decidable p] [Decidable q] (hpq : q ↔ p) (hx : ρ.Matches x y Q E)
    (hx' : ρ.Matches x' y' Q E) : ρ.Matches (if p then x else x') (if q then y else y') Q E := by
  by_cases hp : p
  · rwa [if_pos hp, if_pos (hpq.2 hp)]
  · rwa [if_neg hp, if_neg fun h => hp (hpq.1 h)]

end

/-! ## The solver -/

section

variable {ρ : Pairing} {r s : Run}

theorem mismatch_matches {α : Type} (a b : Ty) (Q : α → α → Prop) :
    ρ.Matches (mismatch a b : Solve α) (mismatch (ρ.ty a) (ρ.ty b)) Q ρ.Errors := by
  refine (couples_prune a).matches.bind ?_
  rintro a' _ rfl
  refine (couples_prune b).matches.bind ?_
  rintro b' _ rfl
  exact matches_throw (.error (.mismatch a' b'))

theorem assign_matches (m : MVar) (t : Ty) :
    ρ.Matches (assign m t) (assign (ρ.mvar m) (ρ.ty t)) (fun _ _ => True) ρ.Errors := by
  intro r s h
  have habsent : ρ.ty t = .absent ↔ t = .absent := Ty.restamp_inj (u := .absent) ρ.injective
  have howns : s.table.owns (ρ.mvar m) = r.table.owns m := by
    rw [h.table, Table.owns_restamp ρ.injective]
  have hsolved : s.table.solved (ρ.mvar m) = r.table.solved m := by
    rw [Table.solved, Table.solved, h.solution?, Option.isSome_map]
  unfold assign
  simp only [habsent, howns, hsolved]
  split_ifs
  · exact .error (.error (.notAllocated m)) h
  · exact .error (.error (.absentSolution m)) h
  · exact .error (.error (.alreadySolved m)) h
  · exact .ok trivial (h.write m t)

theorem settle_matches (m : MVar) (t : Ty) :
    ρ.Matches (settle m t) (settle (ρ.mvar m) (ρ.ty t)) (fun _ _ => True) ρ.Errors := by
  refine matches_get.bind fun r s h => ?_
  rw [h.table, obstacle?_restamp ρ.injective]
  cases obstacle? r.table m t with
  | some why =>
    refine (couples_prune t).matches.bind ?_
    rintro t' _ rfl
    exact matches_throw (.error (.escape m t' why))
  | none => exact assign_matches m t

/-- Unification within `n` steps matches. -/
def UnifyMatches (ρ : Pairing) (n : Nat) : Prop :=
  ∀ a b, ρ.Matches (unifyWithin n a b) (unifyWithin n (ρ.ty a) (ρ.ty b)) (fun _ _ => True) ρ.Errors

/-- Solving within `n` steps matches. -/
def SolveMatches (ρ : Pairing) (n : Nat) : Prop :=
  ∀ m t, ρ.Matches (solveWithin n m t) (solveWithin n (ρ.mvar m) (ρ.ty t)) (fun _ _ => True)
    ρ.Errors

theorem ty_clashes {a b : Ty} (h : a.Clashes b) : (ρ.ty a).Clashes (ρ.ty b) := by
  cases a <;> cases b <;> trivial

theorem descend_matches {n : Nat} (hunify : UnifyMatches ρ n) (hsolve : SolveMatches ρ n)
    (a b : Ty) :
    ρ.Matches (descend (unifyWithin n) (solveWithin n) a b)
      (descend (unifyWithin n) (solveWithin n) (ρ.ty a) (ρ.ty b)) (fun _ _ => True) ρ.Errors := by
  cases a.meeting b with
  | arrow k p q k' p' q' => exact (hunify p p').bind fun _ _ _ => hunify q q'
  | app k f x k' f' x' => exact (hunify f f').bind fun _ _ _ => hunify x x'
  | all k x t k' y u =>
    refine couples_newSkolem.matches.bind ?_
    rintro c _ rfl
    refine (couples_openAll x t (.skolem c)).matches.bind ?_
    rintro t' _ rfl
    refine (couples_openAll y u (.skolem c)).matches.bind ?_
    rintro u' _ rfl
    exact hunify t' u'
  | left m _ =>
    rw [descend_left, ty_mvar, descend_left]
    exact hsolve m b
  | right _ m ha =>
    rw [descend_right m ha, ty_mvar, descend_right]
    · exact hsolve m a
    · intro k hk
      cases a with
      | mvar m' => exact ha m' rfl
      | _ => cases hk
  | clash _ _ hc =>
    rw [descend_clash hc, descend_clash (ty_clashes hc)]
    exact mismatch_matches a b _

theorem unifyWithin_matches_step {n : Nat} (hunify : UnifyMatches ρ n) (hsolve : SolveMatches ρ n) :
    UnifyMatches ρ (n + 1) := by
  intro a b
  rw [unifyWithin_succ, unifyWithin_succ]
  refine (couples_log (.unify a b)).matches.bind fun _ _ _ => ?_
  exact matches_ite (Ty.restamp_inj ρ.injective) (matches_pure trivial)
    (descend_matches hunify hsolve a b)

theorem solveWithin_matches_step {n : Nat} (hunify : UnifyMatches ρ n) (hsolve : SolveMatches ρ n) :
    SolveMatches ρ (n + 1) := by
  intro m t
  rw [solveWithin, solveWithin]
  refine (couples_log (.solve m t)).matches.bind fun _ _ _ => ?_
  refine matches_ite (Ty.restamp_inj (u := .mvar m) ρ.injective) (matches_pure trivial) ?_
  refine matches_get.bind fun r s h => ?_
  simp only [h.solution? m]
  cases r.table.solution? m with
  | some u => exact hunify u t
  | none =>
    cases t with
    | mvar m' =>
      simp only [ty_mvar, Option.map_none, h.solution? m']
      cases r.table.solution? m' with
      | some u => exact hsolve m u
      | none => exact settle_matches m (.mvar m')
    | _ => exact settle_matches m _

theorem unifyWithin_matches (n : Nat) : UnifyMatches ρ n ∧ SolveMatches ρ n := by
  induction n with
  | zero =>
    refine ⟨fun a b => ?_, fun m t => ?_⟩
    · rw [unifyWithin, unifyWithin]
      exact matches_throw (.fault rfl)
    · rw [solveWithin, solveWithin]
      exact matches_throw (.fault rfl)
  | succ n ih =>
    exact ⟨unifyWithin_matches_step ih.1 ih.2, solveWithin_matches_step ih.1 ih.2⟩

theorem Twin.depth (h : ρ.Twin r s) (ts : List Ty) : s.depth (ts.map ρ.ty) = r.depth ts :=
  Run.depth_restamp h.table ts

theorem unify_matches (a b : Ty) :
    ρ.Matches (unify a b) (unify (ρ.ty a) (ρ.ty b)) (fun _ _ => True) ρ.Errors := by
  refine matches_get.bind fun r s h => ?_
  have hsteps : s.steps [ρ.ty a, ρ.ty b] = r.steps [a, b] := by
    have hdepth : s.depth [ρ.ty a, ρ.ty b] = r.depth [a, b] := h.depth [a, b]
    rw [Run.steps, Run.steps, hdepth, h.table, Table.unsolved_restamp]
  rw [hsteps]
  exact (unifyWithin_matches _).1 a b

theorem subsumeWithin_matches (n : Nat) (scope : Scope) (a b : Ty) :
    ρ.Matches (subsumeWithin n scope a b) (subsumeWithin n scope (ρ.ty a) (ρ.ty b))
      (fun _ _ => True) ρ.Errors := by
  induction n generalizing scope a b with
  | zero =>
    rw [subsumeWithin, subsumeWithin]
    exact matches_throw (.fault rfl)
  | succ n ih =>
    have hlog := (couples_log (ρ := ρ) (.subsume a b)).matches (ε := TypeError) (E := ρ.Errors)
    have hbase : ρ.Matches (do Run.log (.subsume a b); unify a b : Solve Unit)
        (do Run.log (.subsume (ρ.ty a) (ρ.ty b)); unify (ρ.ty a) (ρ.ty b)) (fun _ _ => True)
        ρ.Errors := hlog.bind fun _ _ _ => unify_matches a b
    cases b with
    | all k x t =>
      rw [subsumeWithin_right, ty_all, subsumeWithin_right]
      refine hlog.bind fun _ _ _ => couples_newSkolem.matches.bind ?_
      rintro c _ rfl
      refine (couples_openAll x t (.skolem c)).matches.bind ?_
      rintro t' _ rfl
      exact ih _ a t'
    | _ =>
      cases a with
      | all k x t =>
        refine hlog.bind fun _ _ _ => (couples_newMVar scope).matches.bind ?_
        rintro m _ rfl
        refine (couples_openAll x t (.mvar m)).matches.bind ?_
        rintro t' _ rfl
        exact ih scope t' _
      | _ => exact hbase

theorem subsume_matches (scope : Scope) (a b : Ty) :
    ρ.Matches (subsume scope a b) (subsume scope (ρ.ty a) (ρ.ty b)) (fun _ _ => True)
      ρ.Errors := by
  refine matches_get.bind fun r s h => ?_
  rw [show s.depth [ρ.ty a, ρ.ty b] = r.depth [a, b] from h.depth [a, b]]
  exact subsumeWithin_matches _ scope a b

/-- A parameter and what is left, in both runs. -/
def Exposes (ρ : Pairing) (ex ex' : Exposed) : Prop :=
  ex'.param = ρ.ty ex.param ∧ ex'.rest = ρ.ty ex.rest

theorem exposeMVar_matches (m : MVar) :
    ρ.Matches (exposeMVar m) (exposeMVar (ρ.mvar m)) ρ.Exposes ρ.Errors := by
  refine (couples_newMVar m.scope).matches.bind ?_
  rintro p _ rfl
  refine (couples_newMVar m.scope).matches.bind ?_
  rintro q _ rfl
  refine (couples_newArrow (.mvar p) (.mvar q)).matches.bind ?_
  rintro t _ rfl
  exact (assign_matches m t).bind fun _ _ _ => matches_pure ⟨rfl, rfl⟩

theorem exposeWithin_matches (scope : Scope) {args args' : List Expr}
    (hargs : List.Forall₂ ρ.expr args args') (n : Nat) (t : Ty) :
    ρ.Matches (exposeWithin scope args n t) (exposeWithin scope args' n (ρ.ty t)) ρ.Exposes
      ρ.Errors := by
  induction n generalizing t with
  | zero =>
    rw [exposeWithin, exposeWithin]
    exact matches_throw (.fault rfl)
  | succ n ih =>
    cases t with
    | all k x body =>
      refine (couples_newMVar scope).matches.bind ?_
      rintro m _ rfl
      refine (couples_openAll x body (.mvar m)).matches.bind ?_
      rintro t' _ rfl
      exact ih t'
    | arrow k p q => exact matches_pure ⟨rfl, rfl⟩
    | mvar m =>
      refine matches_get.bind fun r s h => ?_
      rw [h.solution? m]
      cases r.table.solution? m with
      | some u => exact ih u
      | none => exact exposeMVar_matches m
    | _ =>
      refine (couples_prune _).matches.bind ?_
      rintro t' _ rfl
      exact matches_throw (.error (.notFunction t' hargs))

/-- The parameters taken and the type that is left, in both runs. -/
def Takes (ρ : Pairing) (ps qs : List Ty × Ty) : Prop :=
  qs.1 = ps.1.map ρ.ty ∧ qs.2 = ρ.ty ps.2

theorem takeAll_matches (scope : Scope) {args args' : List Expr}
    (hargs : List.Forall₂ ρ.expr args args') (t : Ty) :
    ρ.Matches (Parameters.takeAll scope t args) (Parameters.takeAll scope (ρ.ty t) args') ρ.Takes
      ρ.Errors := by
  induction hargs generalizing t with
  | nil => exact matches_pure ⟨rfl, rfl⟩
  | cons harg hargs ih =>
    rw [Parameters.takeAll_cons, Parameters.takeAll_cons]
    refine Matches.bind (Q := ρ.Exposes) ?_ ?_
    · refine matches_get.bind fun r s h => ?_
      rw [show s.depth [ρ.ty t] = r.depth [t] from h.depth [t]]
      exact exposeWithin_matches scope (.cons harg hargs) _ t
    · rintro ⟨p, q⟩ ⟨_, _⟩ ⟨rfl, rfl⟩
      refine (ih q).bind ?_
      rintro ⟨ps, u⟩ ⟨_, _⟩ ⟨rfl, rfl⟩
      exact matches_pure ⟨rfl, rfl⟩

end

/-! ## Expressions that are alike -/

/-- The names that stand for each other where a function binds `x` in one expression and `y` in the
other. -/
def Binding (V : String → String → Prop) (x y : String) (a b : String) : Prop :=
  a = x ∧ b = y ∨ a ≠ x ∧ b ≠ y ∧ V a b

/-- Expressions that differ in the names that functions bind. Free variables stand for each other as
`V` says, and annotations are the same nodes, with stamps that correspond to themselves. -/
inductive Alike (ρ : Pairing) : (String → String → Prop) → Expr → Expr → Prop
  | var {V : String → String → Prop} {x y : String} : V x y → ρ.name x y →
    Alike ρ V (.var x) (.var y)
  | fn {V : String → String → Prop} {x y : String} {e e' : Expr} : ρ.name x y →
    Alike ρ (Binding V x y) e e' → Alike ρ V (.fn x e) (.fn y e')
  | app {V : String → String → Prop} {f f' a a' : Expr} : Alike ρ V f f' → Alike ρ V a a' →
    Alike ρ V (.app f a) (.app f' a')
  | ann {V : String → String → Prop} {e e' : Expr} {t : Ty} : ρ.ty t = t → Alike ρ V e e' →
    Alike ρ V (.ann e t) (.ann e' t)
  | unknown {V : String → String → Prop} (k : String) : Alike ρ V (.unknown k) (.unknown k)
  | absent {V : String → String → Prop} : Alike ρ V .absent .absent

/-- Alike expressions stand for each other in what is recorded and reported. -/
def Faithful (ρ : Pairing) : Prop := ∀ V e e', ρ.Alike V e e' → ρ.expr e e'

/-- What is found for names that stand for each other. -/
inductive Found (ρ : Pairing) : Except Fault (Option Ty) → Except Fault (Option Ty) → Prop
  | ok (t : Option Ty) : Found ρ (.ok t) (.ok (t.map ρ.ty))
  | error {f g : Fault} : ρ.Faults f g → Found ρ (.error f) (.error g)

/-- Names that stand for each other have corresponding types. -/
def SameNames (ρ : Pairing) (V : String → String → Prop) (names names' : Names) : Prop :=
  ∀ x y, V x y → ρ.Found (names.find? x) (names'.find? y)

section

variable {ρ : Pairing} {V : String → String → Prop} {e e' : Expr} {names names' : Names}

theorem Alike.head (h : ρ.Alike V e e') : ρ.Alike V e.head e'.head := by
  induction h with
  | app _ _ ihf _ => exact ihf
  | var hV hn => exact .var hV hn
  | fn hn hbody => exact .fn hn hbody
  | ann ht he => exact .ann ht he
  | unknown k => exact .unknown k
  | absent => exact .absent

theorem Alike.args (h : ρ.Alike V e e') : List.Forall₂ (ρ.Alike V) e.args e'.args := by
  induction h with
  | app _ ha ihf _ => exact List.rel_append ihf (.cons ha .nil)
  | _ => exact .nil

theorem SameNames.insert (h : ρ.SameNames V names names') {x y : String} (hxy : ρ.name x y)
    (t : Ty) :
    ρ.SameNames (Binding V x y) (names.insert x t) (names'.insert y (ρ.ty t)) := by
  rintro a b (⟨rfl, rfl⟩ | ⟨ha, hb, hab⟩)
  · rw [Names.find?_insert_self, Names.find?_insert_self]
    cases t with
    | absent => exact .error hxy
    | _ => exact .ok (some _)
  · rw [Names.find?_insert_of_ne names ha, Names.find?_insert_of_ne names' hb]
    exact h a b hab

/-! ## Inference -/

theorem solving_matches {α β : Type} {x : Solve α} {y : Solve β} {Q : α → β → Prop}
    (h : ρ.Matches x y Q ρ.Errors) (he : ρ.expr e e') :
    ρ.Matches (solving e x) (solving e' y) Q ρ.Rejections := by
  intro r s htwin
  have h := h r s htwin
  rw [solving_apply, solving_apply]
  generalize x r = xr, y s = ys at h
  cases h with
  | ok hab h => exact .ok hab h
  | error hpq h =>
    cases hpq with
    | error hpq => exact .error (.error ⟨hpq, he⟩) h
    | fault hfg => exact .error (.fault hfg) h

/-- The scope and the type that are left, in both runs. -/
def Skolemizes (ρ : Pairing) (p q : Scope × Ty) : Prop := p.1 = q.1 ∧ q.2 = ρ.ty p.2

theorem skolemizeWithin_matches (he : ρ.expr e e') (n : Nat) (scope : Scope) (t : Ty) :
    ρ.Matches (skolemizeWithin e n scope t) (skolemizeWithin e' n scope (ρ.ty t)) ρ.Skolemizes
      ρ.Rejections := by
  induction n generalizing scope t with
  | zero =>
    rw [skolemizeWithin_zero, skolemizeWithin_zero]
    exact matches_throw (.fault rfl)
  | succ n ih =>
    have hlog := (couples_log (.check t he)).matches (ε := Rejection) (E := ρ.Rejections)
    cases t with
    | mvar m =>
      refine hlog.bind fun _ _ _ => matches_get.bind fun r s h => ?_
      rw [h.solution? m]
      cases r.table.solution? m with
      | some u => exact ih scope u
      | none => exact matches_pure ⟨rfl, rfl⟩
    | all k x body =>
      refine hlog.bind fun _ _ _ => couples_newSkolem.matches.bind ?_
      rintro c _ rfl
      refine (couples_openAll x body (.skolem c)).matches.bind ?_
      rintro t' _ rfl
      exact ih _ t'
    | _ => exact hlog.bind fun _ _ _ => matches_pure ⟨rfl, rfl⟩

theorem skolemize_matches (he : ρ.expr e e') (scope : Scope) (t : Ty) :
    ρ.Matches (skolemize e scope t) (skolemize e' scope (ρ.ty t)) ρ.Skolemizes ρ.Rejections := by
  refine matches_get.bind fun r s h => ?_
  rw [show s.depth [ρ.ty t] = r.depth [t] from h.depth [t]]
  exact skolemizeWithin_matches he _ scope t

/-- Checking matches on alike expressions. -/
def CheckMatches (ρ : Pairing) (e : Expr) : Prop :=
  ∀ V e' names names' scope t, ρ.Alike V e e' → ρ.SameNames V names names' →
    ρ.Matches (check names scope e t) (check names' scope e' (ρ.ty t)) (fun _ _ => True)
      ρ.Rejections

/-- Synthesizing matches on alike expressions. -/
def SynthMatches (ρ : Pairing) (e : Expr) : Prop :=
  ∀ V e' names names' scope, ρ.Alike V e e' → ρ.SameNames V names names' →
    ρ.Matches (synth names scope e) (synth names' scope e') (fun t u => u = ρ.ty t) ρ.Rejections

theorem checkArgs_matches {scope : Scope} {args args' : List Expr}
    (hargs : List.Forall₂ (ρ.Alike V) args args') (hcheck : ∀ a ∈ args, ρ.CheckMatches a)
    (hnames : ρ.SameNames V names names') (params : List Ty) :
    ρ.Matches (checkArgs names scope args params) (checkArgs names' scope args' (params.map ρ.ty))
      (fun _ _ => True) ρ.Rejections := by
  induction hargs generalizing params with
  | nil => exact matches_pure trivial
  | cons ha hargs ih =>
    cases params with
    | nil => exact matches_pure trivial
    | cons p params =>
      rw [List.forall_mem_cons] at hcheck
      rw [checkArgs_cons, List.map_cons, checkArgs_cons]
      exact (hcheck.1 V _ names names' scope p ha hnames).bind fun _ _ _ => ih hcheck.2 params

/-- The head of an application is synthesized and its parameters are taken. -/
theorem head_matches {α β : Type} {scope : Scope} {k : List Ty × Ty → Infer α}
    {k' : List Ty × Ty → Infer β} {Q : α → β → Prop} (hρ : ρ.Faithful)
    (hsynth : ρ.SynthMatches e.head) (h : ρ.Alike V e e') (hnames : ρ.SameNames V names names')
    (hk : ∀ ps, ρ.Matches (k ps) (k' (ps.1.map ρ.ty, ρ.ty ps.2)) Q ρ.Rejections) :
    ρ.Matches
      (do
        let ft ← synth names scope e.head
        let ps ← solving e (Parameters.takeAll scope ft e.args)
        k ps)
      (do
        let ft ← synth names' scope e'.head
        let ps ← solving e' (Parameters.takeAll scope ft e'.args)
        k' ps) Q ρ.Rejections := by
  refine (hsynth V _ names names' scope h.head hnames).bind ?_
  rintro ft _ rfl
  have hargs : List.Forall₂ ρ.expr e.args e'.args := h.args.imp fun a a' ha => hρ V a a' ha
  refine (solving_matches (takeAll_matches scope hargs ft) (hρ V e e' h)).bind ?_
  rintro ps ⟨_, _⟩ ⟨rfl, rfl⟩
  exact hk ps

theorem synth_matches_step (hρ : ρ.Faithful) (e : Expr)
    (ih : ∀ e', e'.size < e.size → ρ.CheckMatches e' ∧ ρ.SynthMatches e') : ρ.SynthMatches e := by
  intro V e' names names' scope h hnames
  have hexpr := hρ V e e' h
  have hlog := (couples_log (.synth hexpr)).matches (ε := Rejection) (E := ρ.Rejections)
  have hother : e.Unruled → e'.Unruled → ρ.Matches (synth names scope e) (synth names' scope e')
      (fun t u => u = ρ.ty t) ρ.Rejections := by
    intro hu hu'
    rw [synth_other names scope hu, synth_other names' scope hu']
    exact hlog.bind fun _ _ _ => matches_throw (.error ⟨.unsynthesizable hexpr, hexpr⟩)
  cases h with
  | @var _ x y hV hn =>
    rw [synth_var, synth_var]
    refine hlog.bind fun _ _ _ => ?_
    have hfound := hnames x y hV
    generalize names.find? x = f, names'.find? y = g at hfound
    cases hfound with
    | ok t =>
      cases t with
      | some t => exact matches_pure rfl
      | none => exact matches_throw (.error ⟨.unbound hn, hexpr⟩)
    | error hf => exact matches_throw (.fault hf)
  | @fn _ x y body body' hn hbody =>
    rw [synth_fn, synth_fn]
    refine hlog.bind fun _ _ _ => (couples_newMVar scope).matches.bind ?_
    rintro p _ rfl
    refine (couples_newMVar scope).matches.bind ?_
    rintro q _ rfl
    have hcheck := (ih body (by simp only [Expr.size]; omega)).1
    refine (hcheck _ body' _ _ scope (.mvar q) hbody (hnames.insert hn (.mvar p))).bind
      fun _ _ _ => ?_
    exact (couples_newArrow (.mvar p) (.mvar q)).matches
  | @app _ f f' a a' hf ha =>
    rw [synth_app, synth_app]
    refine hlog.bind fun _ _ _ => ?_
    refine head_matches hρ (ih _ (Expr.size_head_lt f a)).2 (.app hf ha) hnames fun ps => ?_
    refine (checkArgs_matches (Alike.args (.app hf ha))
      (fun b hb => (ih b (Expr.size_lt_of_mem_args hb)).1) hnames ps.1).bind fun _ _ _ => ?_
    exact matches_pure rfl
  | @ann _ e₁ e₁' t ht he =>
    by_cases habsent : t = .absent
    · subst habsent
      exact hother (.inr (.inr ⟨e₁, rfl⟩)) (.inr (.inr ⟨e₁', rfl⟩))
    · rw [synth_ann names scope e₁ habsent, synth_ann names' scope e₁' habsent]
      refine hlog.bind fun _ _ _ => ?_
      have hcheck := (ih e₁ (by simp only [Expr.size]; omega)).1 V e₁' names names' scope t he hnames
      rw [ht] at hcheck
      exact hcheck.bind fun _ _ _ => matches_pure ht.symm
  | unknown k => exact hother (.inr (.inl ⟨k, rfl⟩)) (.inr (.inl ⟨k, rfl⟩))
  | absent => exact hother (.inl rfl) (.inl rfl)

theorem check_matches_step (hρ : ρ.Faithful) (e : Expr) (hs : ρ.SynthMatches e)
    (ih : ∀ e', e'.size < e.size → ρ.CheckMatches e' ∧ ρ.SynthMatches e') : ρ.CheckMatches e := by
  intro V e' names names' scope t h hnames
  have hexpr := hρ V e e' h
  rw [check_eq, check_eq]
  refine (skolemize_matches hexpr scope t).bind ?_
  rintro ⟨scope, t⟩ ⟨scope', t'⟩ ⟨hscope, ht⟩
  obtain rfl : scope = scope' := hscope
  obtain rfl : t' = ρ.ty t := ht
  have hsub : ρ.Matches
      (do
        let found ← synth names scope e
        solving e (subsume scope found t))
      (do
        let found ← synth names' scope e'
        solving e' (subsume scope found (ρ.ty t))) (fun _ _ => True) ρ.Rejections := by
    refine (hs V e' names names' scope h hnames).bind ?_
    rintro found _ rfl
    exact solving_matches (subsume_matches scope found t) hexpr
  cases h with
  | @fn _ x y body body' hn hbody =>
    cases t with
    | arrow k p q =>
      have hcheck := (ih body (by simp only [Expr.size]; omega)).1
      exact hcheck _ body' _ _ scope q hbody (hnames.insert hn p)
    | _ => exact hsub
  | @app _ f f' a a' hf ha =>
    refine head_matches hρ (ih _ (Expr.size_head_lt f a)).2 (.app hf ha) hnames fun ps => ?_
    refine (solving_matches (subsume_matches scope ps.2 t) hexpr).bind fun _ _ _ => ?_
    exact checkArgs_matches (Alike.args (.app hf ha))
      (fun b hb => (ih b (Expr.size_lt_of_mem_args hb)).1) hnames ps.1
  | _ => exact hsub

/-- **Inference does the same on alike expressions.** -/
theorem infer_matches (hρ : ρ.Faithful) (e : Expr) : ρ.CheckMatches e ∧ ρ.SynthMatches e :=
  infer_induction (synth_matches_step hρ) (check_matches_step hρ) e

end

end Pairing

end RankN
