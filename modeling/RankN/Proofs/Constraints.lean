import RankN.Proofs.Simple

/-!
# Actions as constraints

In the rank-1 fragment an action of inference imposes a constraint on what metavariables mean, and
nothing more. `x.Decides r C Q D` says so: in the run `r`, the constraint `C` comes down to `D a`, where
`a` is the answer of `x`.

* *Sound*: where `D a` holds in a model of the run that `x` leaves, `C` holds.
* *Complete*: a model of `r` with `C` can be changed, outside the metavariables of `r`, into a model of
  the run that `x` leaves, with `D a`.
* If `x` stops, and not for lack of steps, `C` holds in no model of `r`.

Models give simple types to all metavariables. Constraints speak of metavariables that the run has
(`Local`), so those that are added later do not matter to them.

The rule for sequences (`Decides.bind`) makes this compositional: the constraint that is left by one
action is the one that is imposed by the next.
-/

namespace RankN

open RankN.Action
open Nameless (Instance)

/-! ## Simple models -/

namespace Assignment

/-- A model of the run in which metavariables mean simple types. -/
structure Fulfils (θ : Assignment) (r : Run) : Prop where
  mono : ∀ m, (θ.type m).Mono
  models : θ.Models r.table

/-- The second assignment is the first, but for metavariables that the run does not have. -/
def AgreeOn (r : Run) (θ θ' : Assignment) : Prop := ∀ m, r.table.owns m → θ'.type m = θ.type m

/-- The assignment of simple types. -/
def ofMono (σ : MVar → Nameless) (h : ∀ m, (σ m).Mono) : Assignment where
  type := σ
  closed m := (h m).closed
  inScope m id hid := absurd hid ((h m).skolem_notMem id)

variable {r r' : Run} {θ θ' θ'' : Assignment}

theorem Fulfils.of_extends (h : θ.Fulfils r') (he : r.Extends r') : θ.Fulfils r :=
  ⟨h.mono, h.models.of_extends he⟩

theorem Fulfils.agrees (h : θ.Fulfils r) (ha : r.Agrees r') : θ.Fulfils r' := by
  refine ⟨h.mono, ?_⟩
  rw [ha.table]
  exact h.models

theorem AgreeOn.of_extends (h : AgreeOn r' θ θ') (he : r.Extends r') : AgreeOn r θ θ' :=
  fun m hm => h m (he.owns m hm)

theorem AgreeOn.trans (h : AgreeOn r θ θ') (h' : AgreeOn r θ' θ'') : AgreeOn r θ θ'' :=
  fun m hm => (h' m hm).trans (h m hm)

theorem AgreeOn.read (h : AgreeOn r θ θ') {t : Ty} (ht : t.Over r) (ctx : List String) :
    t.read θ'.type ctx = t.read θ.type ctx := Ty.read_congr fun m hm => h m (ht.1 m hm)

theorem AgreeOn.assume (h : AgreeOn r θ θ') {names : Names} (hn : names.Every (·.Over r)) :
    names.assume θ' = names.assume θ := by
  funext x
  unfold Names.assume
  cases hx : names.lookup x with
  | none => rfl
  | some t => simp [Assignment.read, h.read (hn.lookup hx)]

end Assignment

open Assignment (AgreeOn)

/-- The constraint speaks of metavariables that the run has. -/
def Local (r : Run) (F : Assignment → Prop) : Prop := ∀ θ θ', AgreeOn r θ θ' → F θ → F θ'

theorem Local.of_extends {r r' : Run} {F : Assignment → Prop} (h : Local r F) (he : r.Extends r') :
    Local r' F := fun θ θ' hag => h θ θ' (hag.of_extends he)

/-! ## Deciding -/

/-- From `r` to `r'`, the constraint `C` comes down to `D`. -/
structure Decided (r : Run) (C D : Assignment → Prop) (r' : Run) : Prop where
  valid : r'.Valid Ty.Simple
  extends_ : r.Extends r'
  sound : ∀ θ : Assignment, θ.Fulfils r' → D θ → C θ
  complete : ∀ θ : Assignment, θ.Fulfils r → C θ →
    ∃ θ' : Assignment, θ'.Fulfils r' ∧ AgreeOn r θ θ' ∧ D θ'

variable {r r' r'' : Run} {C C' D E F : Assignment → Prop}

theorem Decided.trans (h : Decided r C D r') (h' : Decided r' D E r'') : Decided r C E r'' where
  valid := h'.valid
  extends_ := h.extends_.trans h'.extends_
  sound θ hθ hE := h.sound θ (hθ.of_extends h'.extends_) (h'.sound θ hθ hE)
  complete θ hθ hC := by
    obtain ⟨θ₁, hθ₁, hag₁, hD⟩ := h.complete θ hθ hC
    obtain ⟨θ₂, hθ₂, hag₂, hE⟩ := h'.complete θ₁ hθ₁ hD
    exact ⟨θ₂, hθ₂, hag₁.trans (hag₂.of_extends h.extends_), hE⟩

/-- A step that leaves the table alone decides nothing. -/
theorem Run.Agrees.decided (ha : r.Agrees r') (hr : r.Valid Ty.Simple)
    (h : ∀ θ : Assignment, θ.Fulfils r → (C θ ↔ D θ)) : Decided r C D r' where
  valid := ha.valid hr
  extends_ := ha.extends_
  sound θ hθ hD := (h θ (hθ.of_extends ha.extends_)).2 hD
  complete θ hθ hC := ⟨θ, hθ.agrees ha, fun _ _ => rfl, (h θ hθ).1 hC⟩

namespace Action

variable {ε α β : Type} {x : Action ε α} {f : α → Action ε β} {Q : α → Run → Prop}
  {G : α → Assignment → Prop}

/-- In the run `r`, the constraint `C` comes down to `G a`, where `a` is the answer; and `Q` holds
of the answer and the run that is left. -/
def Decides (x : Action ε α) (r : Run) (C : Assignment → Prop) (Q : α → Run → Prop)
    (G : α → Assignment → Prop) : Prop :=
  x.Ensures r (fun a r' => Decided r C (G a) r' ∧ Q a r') fun stop _ =>
    stop ≠ .fault .cyclic → ∀ θ : Assignment, θ.Fulfils r → ¬ C θ

theorem Decides.bind {Q' : β → Run → Prop} {G' : β → Assignment → Prop} (hx : x.Decides r C Q G)
    (hf : ∀ a r', r'.Valid Ty.Simple → r.Extends r' → Q a r' → (f a).Decides r' (G a) Q' G') :
    (x >>= f).Decides r C Q' G' := by
  refine ensures_bind.2 (Ensures.mono hx (fun a r₁ h => ?_) fun _ _ h => h)
  refine (hf a r₁ h.1.valid h.1.extends_ h.2).mono (fun b r₂ h' => ⟨h.1.trans h'.1, h'.2⟩) ?_
  intro stop _ hrefutes hstop θ hθ hC
  obtain ⟨θ', hθ', -, hG⟩ := h.1.complete θ hθ hC
  exact hrefutes hstop θ' hθ' hG

/-- A constraint may be put in another form. -/
theorem Decides.congr (hx : x.Decides r C Q G)
    (hC : ∀ θ : Assignment, θ.Fulfils r → (C' θ ↔ C θ)) : x.Decides r C' Q G := by
  refine Ensures.mono hx (fun a r' h => ⟨⟨h.1.valid, h.1.extends_, fun θ hθ hG => ?_,
    fun θ hθ hC' => h.1.complete θ hθ ((hC θ hθ).1 hC')⟩, h.2⟩) ?_
  · exact (hC θ (hθ.of_extends h.1.extends_)).2 (h.1.sound θ hθ hG)
  · intro stop _ h hstop θ hθ hC'
    exact h hstop θ hθ ((hC θ hθ).1 hC')

/-- An action may be looked at after a step that leaves the table alone. -/
theorem Decides.after (ha : r.Agrees r') (hr : r.Valid Ty.Simple) (hx : x.Decides r' C Q G) :
    x.Ensures r' (fun a r'' => Decided r C (G a) r'' ∧ Q a r'') fun stop _ =>
      stop ≠ .fault .cyclic → ∀ θ : Assignment, θ.Fulfils r → ¬ C θ := by
  refine Ensures.mono hx (fun a r'' h => ?_) fun stop _ h hstop θ hθ => ?_
  · exact ⟨(ha.decided hr fun _ _ => Iff.rfl).trans h.1, h.2⟩
  · exact h hstop θ (hθ.agrees ha)

theorem decides_pure {a : α} (hr : r.Valid Ty.Simple) (ha : Q a r)
    (h : ∀ θ : Assignment, θ.Fulfils r → (C θ ↔ G a θ)) :
    (pure a : Action ε α).Decides r C Q G :=
  ensures_pure.2 ⟨Run.Agrees.decided ⟨rfl, rfl, rfl⟩ hr h, ha⟩

theorem decides_throw {stop : Stop ε} (h : ∀ θ : Assignment, θ.Fulfils r → ¬ C θ) :
    (throw stop : Action ε α).Decides r C Q G := ensures_throw.2 fun _ => h

theorem decides_get_bind {f : Run → Action ε α} (h : (f r).Decides r C Q G) :
    (get >>= f).Decides r C Q G := ensures_bind.2 (ensures_get.2 h)

/-- A step that leaves the table alone may come first. -/
theorem decides_agrees_bind {y : StateM Run β} {f : β → Action ε α} (hr : r.Valid Ty.Simple)
    (ha : r.Agrees (y r).2) (h : (f (y r).1).Decides (y r).2 C Q G) :
    (liftM y >>= f : Action ε α).Decides r C Q G := by
  have hy : (liftM y : Action ε β).Decides r C (fun b r' => b = (y r).1 ∧ r' = (y r).2) fun _ => C :=
    ensures_lift.2 ⟨ha.decided hr fun _ _ => Iff.rfl, rfl, rfl⟩
  refine hy.bind ?_
  rintro b r' - - ⟨rfl, rfl⟩
  exact h

theorem decides_solving {e : Expr} {x : Solve α} (h : x.Decides r C Q G) :
    (solving e x).Decides r C Q G := by
  refine ensures_solving.2 (Ensures.mono h (fun _ _ h => h) ?_)
  intro stop _ h hstop
  refine h ?_
  rintro rfl
  exact hstop rfl

/-- **A new metavariable** may mean any simple type. -/
theorem decides_newMVar (hr : r.Valid Ty.Simple) {H : Assignment → Nameless → Prop}
    (hH : ∀ A, Local r (H · A)) :
    (liftM (Run.newMVar .empty) : Action ε MVar).Decides r (fun θ => ∃ A : Nameless, A.Mono ∧ H θ A)
      (fun m r' => r.Adds .empty m r') fun m θ => H θ (θ.type m) := by
  have hadds := hr.adds_newMVar .empty
  refine ensures_lift.2 ⟨⟨hr.newMVar fun id hid => absurd hid Scope.not_mem_empty,
    r.extends_newMVar .empty, fun θ hθ h => ⟨_, hθ.mono _, h⟩, ?_⟩, hadds⟩
  rintro θ hθ ⟨A, hA, h⟩
  set m := (Run.newMVar .empty r).1
  have hmono : ∀ k, (Function.update θ.type m A k).Mono := by
    intro k
    by_cases hk : k = m
    · rw [hk, Function.update_self]
      exact hA
    · rw [Function.update_of_ne hk]
      exact hθ.mono k
  have hag : AgreeOn r θ (.ofMono _ hmono) := by
    intro k hk
    exact Function.update_of_ne (hadds.ne_of_owns hk) _ _
  refine ⟨.ofMono _ hmono, ⟨hmono, fun k t hk => ?_⟩, hag, ?_⟩
  · rw [hadds.solution] at hk
    rw [hag k (Table.owns_of_solution? hk), hθ.models k t hk]
    exact (hag.read (hr.solutions k t hk).isOver []).symm
  · show H (.ofMono _ hmono) (Function.update θ.type m A m)
    rw [Function.update_self]
    exact hH A θ _ hag h

end Action

/-! ## Solving -/

/-- All metavariables in the expansion have the scope `s`. -/
def Ty.Uniform (r : Run) (s : Scope) (t : Ty) : Prop :=
  (r.table.expand t).Leaves (·.scope = s) fun _ => True

section

variable {P : Ty → Prop} {r r' : Run} {s : Scope} {t u : Ty} {m : MVar}

theorem Ty.Uniform.of_table_eq (h : t.Uniform r s) (ht : r'.table = r.table) : t.Uniform r' s := by
  unfold Ty.Uniform
  rwa [ht]

/-- **Solving keeps types uniform.** -/
theorem Ty.Uniform.extend (h : t.Uniform r s) (hr : r.Valid P) (hr' : r'.Valid P)
    (he : r.Extends r') : t.Uniform r' s := by
  unfold Ty.Uniform
  rw [← hr.acyclic.expand_expand_of_le hr'.acyclic he.solution, Table.leaves_expand]
  refine h.mono (fun m hm => ?_) fun _ _ => trivial
  exact (hr'.fits_mvar m).mono (fun k hk => hk.trans hm) fun _ _ => trivial

theorem Ty.uniform_arrow {n : Nat} {p q : Ty} :
    (Ty.arrow n p q).Uniform r s ↔ p.Uniform r s ∧ q.Uniform r s := Ty.leaves_arrow

theorem Ty.uniform_solved (hr : r.Valid P) (hm : r.table.solution? m = some u) :
    (Ty.mvar m).Uniform r s ↔ u.Uniform r s := by
  unfold Ty.Uniform
  rw [hr.acyclic.expand_solved hm]

theorem Ty.uniform_unsolved (hm : r.table.solution? m = none) :
    (Ty.mvar m).Uniform r s ↔ m.scope = s := by
  unfold Ty.Uniform
  rw [Table.expand_unsolved hm, Ty.leaves_mvar]

end

/-- A simple type of the run, whose metavariables have no skolem constants in scope. -/
structure Ty.Flat (r : Run) (t : Ty) : Prop where
  of : t.Of Ty.Simple r
  uniform : t.Uniform r .empty

section

variable {t a b : Ty} {m : MVar} {θ : Assignment}

theorem Ty.Flat.mono (h : t.Flat r) (hr : r.Valid Ty.Simple) (hr' : r'.Valid Ty.Simple)
    (he : r.Extends r') : t.Flat r' :=
  ⟨h.of.mono Ty.stable_simple hr hr' he, h.uniform.extend hr hr' he⟩

theorem Ty.Flat.agrees (h : t.Flat r) (ha : r.Agrees r') : t.Flat r' :=
  ⟨ha.of h.of, h.uniform.of_table_eq ha.table⟩

theorem Ty.flat_arrow {n : Nat} {p q : Ty} : (Ty.arrow n p q).Flat r ↔ p.Flat r ∧ q.Flat r := by
  constructor
  · rintro ⟨ho, hu⟩
    obtain ⟨hp, hq⟩ := (Ty.of_arrow Ty.stable_simple).1 ho
    exact ⟨⟨hp, (Ty.uniform_arrow.1 hu).1⟩, hq, (Ty.uniform_arrow.1 hu).2⟩
  · rintro ⟨⟨hp, hp'⟩, hq, hq'⟩
    exact ⟨(Ty.of_arrow Ty.stable_simple).2 ⟨hp, hq⟩, Ty.uniform_arrow.2 ⟨hp', hq'⟩⟩

theorem Ty.Flat.solution (h : (Ty.mvar m).Flat r) (hr : r.Valid Ty.Simple)
    (hm : r.table.solution? m = some t) : t.Flat r :=
  ⟨hr.solutions m t hm, (Ty.uniform_solved hr hm).1 h.uniform⟩

theorem Ty.flat_mvar (hr : r.Valid Ty.Simple) (ho : r.table.owns m)
    (hm : r.table.solution? m = none) (hs : m.scope = .empty) : (Ty.mvar m).Flat r :=
  ⟨Ty.of_mvar Ty.stable_simple hr ho, (Ty.uniform_unsolved hm).2 hs⟩

theorem Ty.Flat.ne_all (h : t.Flat r) (n : Nat) (x : String) (body : Ty) : t ≠ .all n x body := by
  rintro rfl
  exact h.of.mem

/-- A simple type means what its expansion means. -/
theorem Ty.Flat.read_expand (h : t.Flat r) (hr : r.Valid Ty.Simple) (hθ : θ.Models r.table) :
    θ.read (r.table.expand t) = θ.read t :=
  hθ.read_expand hr (fun _ => Ty.Simple.named) (by simp) h.of.mem.named

theorem Ty.Flat.mono_read (h : t.Flat r) (hr : r.Valid Ty.Simple) (hθ : θ.Fulfils r) :
    (θ.read t).Mono := by
  rw [← h.read_expand hr hθ.models]
  exact h.of.mem.mono_read hθ.mono

/-- **Unification** imposes an equation. -/
theorem decides_unify (hr : r.Valid Ty.Simple) (ha : a.Flat r) (hb : b.Flat r) :
    (unify a b).Decides r (fun θ => θ.read a = θ.read b ∧ F θ) (fun _ _ => True) fun _ => F := by
  refine (unify_exact Ty.stable_simple (fun _ => Ty.Simple.named) (fun _ h => h) hr ha.of hb.of
    ⟨ha.of.mem.complete, ha.uniform⟩ ⟨hb.of.mem.complete, hb.uniform⟩).mono ?_ ?_
  · rintro _ r' ⟨⟨hr', he, hnarrow⟩, -⟩
    refine ⟨⟨hr', he, fun θ hθ hF => ⟨((hnarrow θ).1 hθ.models).2, hF⟩, ?_⟩, trivial⟩
    rintro θ hθ ⟨heq, hF⟩
    exact ⟨θ, ⟨hθ.mono, (hnarrow θ).2 ⟨hθ.models, heq⟩⟩, fun _ _ => rfl, hF⟩
  · rintro stop _ ⟨-, hrefutes⟩ - θ hθ hC
    exact hrefutes θ hθ.models hC.1

/-- **Solving** a metavariable imposes an equation, if nothing stands in the way. -/
theorem decides_assign (hr : r.Valid Ty.Simple) (ho : r.table.owns m)
    (hm : r.table.solution? m = none) (ht : t.Flat r) (hocc : m ∉ (r.table.expand t).mvars)
    (hs : m.scope = .empty) :
    (assign m t).Decides r (fun θ => θ.type m = θ.read t ∧ F θ) (fun _ _ => True) fun _ => F := by
  refine ensures_assign ho hm ?_ fun _ => ⟨⟨?_, r.extends_solved hm t, fun θ hθ hF => ?_, ?_⟩, trivial⟩
  · rintro rfl
    exact ht.of.mem.elim
  · refine hr.solved Ty.stable_simple ho hm ht.of hocc ?_
    rw [hs]
    exact ⟨ht.uniform.1, fun id hid => absurd hid ht.of.mem.skolem_notMem⟩
  · exact ⟨((Assignment.models_write ho hm).1 hθ.models).2, hF⟩
  · rintro θ hθ ⟨heq, hF⟩
    exact ⟨θ, ⟨hθ.mono, (Assignment.models_write ho hm).2 ⟨hθ.models, heq⟩⟩, fun _ _ => rfl, hF⟩

end

end RankN
