import RankN.Proofs.FullUnification

/-!
# The shortcut for equal nodes

Unification answers at once if it is given one node twice, which saves it from opening the
quantifiers in that node. Everything after it then happens in a run that has drawn fewer constants
and fewer stamps. Is that all the difference it makes?

**Ahead** (`Run.Ahead`). Two runs are compared, `r` with the shortcut and `s` without. Their
metavariables and solutions are the same, but `s` may have opened more quantifiers.

**Abreast** (`Run.Abreast`, `Ty.Stands`). While unification is inside of a quantifier, the constants
that stand for its variable differ in the two runs. A permutation `g` of the constants says which
ones correspond. It moves no constant in the scope of a metavariable, and so it leaves all solutions
alone and passes all scope checks.

**Lockstep** (`unifyWithin_tracks`). With as many steps, both functions end alike from runs that are
abreast, and the second run is still ahead. A step in which only one of them stops is one at a node
that is given twice; there, the other one has nothing to do but to open quantifiers.

Main result: `Reachable.unify_like_fully`. It asks that the constants in the types have been
allocated, because a constant still to be drawn is one that the two runs draw at different times
(`unify_of_colliding_constant`). And it asks that nothing of an unknown kind is met, also in
solutions: equal nodes of an unknown kind are recognised by the shortcut only.
-/

namespace RankN

open RankN.Action

/-! ## A run that is ahead -/

/-- The run `s` is `r`, but may have opened more quantifiers: metavariables are the same, and those
that are solved have the same solutions, but for stamps. -/
structure Run.Ahead (r s : Run) : Prop where
  mvars : s.mvars = r.mvars
  mvarAt : ∀ i, s.table.mvarAt? i = r.table.mvarAt? i
  solution : ∀ m, (s.table.solution? m).map Ty.plain = (r.table.solution? m).map Ty.plain
  skolems : r.skolems ≤ s.skolems

/-- The permutation leaves the constants alone that are in the scope of a metavariable. -/
def Run.Fixes (r : Run) (g : Equiv.Perm Int) : Prop :=
  ∀ m, r.table.owns m → ∀ c ∈ m.scope, g c = c

section

variable {r r' s s' : Run} {g : Equiv.Perm Int} {t t' : Ty} {m : MVar}

theorem Run.fixes_one (r : Run) : r.Fixes 1 := fun _ _ _ _ => rfl

theorem Run.Fixes.faithful (h : r.Fixes g) :
    Faithful id g (r.table.owns ·) (r.table.owns ·) := by
  refine ⟨fun _ hm => hm, fun _ _ _ _ heq => heq, fun m hm c => ⟨fun hc => ?_, fun hc => ?_⟩⟩
  · have hgc : g c ∈ m.scope := hc
    rwa [g.injective (h m hm (g c) hgc)] at hgc
  · show g c ∈ m.scope
    rwa [h m hm c hc]

/-- A solution mentions constants of the scope only. -/
theorem Run.Valid.mem_scope_of_solution (hr : r.Valid Ty.Any) (hm : r.table.solution? m = some t)
    {c : Int} (hc : c ∈ t.skolems) : c ∈ m.scope :=
  (Table.leaves_expand.1 (hr.fits m t hm)).2 c hc

/-- The tables of a run and of one that is ahead are alike, whichever constants correspond. -/
theorem Run.Ahead.like (h : r.Ahead s) (hr : r.Valid Ty.Any) (hg : r.Fixes g) :
    r.table.Like g s.table := by
  have hid : r.table.Like id s.table := by
    refine ⟨h.mvarAt, fun m => ?_⟩
    have hsol := h.solution m
    cases hm : r.table.solution? m with
    | none =>
      rw [hm, Option.map_none, Option.map_eq_none_iff] at hsol
      rw [hsol]
      exact .none
    | some u =>
      rw [hm, Option.map_some, Option.map_eq_some_iff] at hsol
      obtain ⟨u', hu', hplain⟩ := hsol
      rw [hu']
      exact .some (Ty.like_id_iff.2 hplain)
  exact hid.congr fun m u hm c hc =>
    (hg m (Table.owns_of_solution? hm) c (hr.mem_scope_of_solution hm hc)).symm

theorem Run.Ahead.of_like (hr : r.Valid Ty.Any) (hg : r.Fixes g) (h : r.table.Like g s.table)
    (hmvars : s.mvars = r.mvars) (hskolems : r.skolems ≤ s.skolems) : r.Ahead s := by
  have hid : r.table.Like id s.table := h.congr fun m u hm c hc =>
    hg m (Table.owns_of_solution? hm) c (hr.mem_scope_of_solution hm hc)
  refine ⟨hmvars, h.mvarAt, fun m => ?_, hskolems⟩
  cases hm : r.table.solution? m with
  | none => rw [hid.unsolved hm]
  | some u =>
    obtain ⟨u', hu', hlike⟩ := hid.solved hm
    rw [hu', Option.map_some, Option.map_some, Ty.like_id_iff.1 hlike]

theorem Run.Ahead.refl (r : Run) : r.Ahead r := ⟨rfl, fun _ => rfl, fun _ => rfl, le_rfl⟩

theorem Run.Ahead.idles (h : r.Ahead s) (hr : r.Idles r') (hs : s.Idles s')
    (hle : r'.skolems ≤ s'.skolems) : r'.Ahead s' := by
  refine ⟨?_, ?_, ?_, hle⟩
  · rw [hs.mvars, h.mvars, hr.mvars]
  · rw [hs.table, hr.table]
    exact h.mvarAt
  · rw [hs.table, hr.table]
    exact h.solution

theorem Run.Ahead.owns (h : r.Ahead s) : s.table.owns m ↔ r.table.owns m := by
  rw [Table.owns_iff_mvarAt?, h.mvarAt, ← Table.owns_iff_mvarAt?]

theorem Run.Ahead.isOver (h : r.Ahead s) (ht : t.Over r) (hlike : t.Like id t') : t'.Over s := by
  rw [Ty.Over, ← Ty.leaves_plain, Ty.like_id_iff.1 hlike, Ty.leaves_plain]
  exact ht.mono (fun m hm => h.owns.2 hm)
    fun c hc => ⟨hc.1, lt_of_lt_of_le hc.2 (Int.ofNat_le.2 h.skolems)⟩

/-- A run that is ahead of a valid one is valid. -/
theorem Run.Ahead.valid (h : r.Ahead s) (hr : r.Valid Ty.Any) : s.Valid Ty.Any := by
  have hlike : r.table.Like id s.table := h.like hr r.fixes_one
  refine ⟨?_, fun i m hm => hr.ids i m ?_, fun m hm c hc => ?_, fun m u hu => ?_,
    hlike.acyclic hr.acyclic, fun m u hu => ?_⟩
  · rw [h.mvars, hr.count, hlike.size]
  · rwa [← h.mvarAt]
  · have hc := hr.scopes m (h.owns.1 hm) c hc
    exact ⟨hc.1, lt_of_lt_of_le hc.2 (Int.ofNat_le.2 h.skolems)⟩
  · obtain ⟨v, hv, huv⟩ := hlike.of_solved hu
    exact ⟨h.isOver (hr.solutions m v hv).isOver huv, trivial⟩
  · obtain ⟨v, hv, huv⟩ := hlike.of_solved hu
    rw [hlike.expand hr.acyclic huv, Ty.relabel_id]
    exact hr.fits m v hv

/-- A run that is ahead stays ahead when both prune types that are alike. -/
theorem Run.Ahead.prune (h : r.Ahead s) (hr : r.Valid Ty.Any) (hg : r.Fixes g) (ht : t.Like g t') :
    (RankN.prune t r).2.Ahead (RankN.prune t' s).2 := by
  obtain ⟨-, hlike⟩ := prune_like (h.like hr hg) ht
  have hspec := prune_spec hr.acyclic t
  have hspec' := prune_spec (h.valid hr).acyclic t'
  refine .of_like (hr.prune t) (fun m hm => hg m ((hspec.shortens.owns m).1 hm)) hlike ?_ ?_
  · rw [hspec.frame, hspec'.frame]
    exact h.mvars
  · rw [hspec.frame, hspec'.frame]
    exact h.skolems

end

/-! ## In lockstep -/

/-- From `r` and `s`, the runs `r'` and `s'` were reached, the second of which is ahead. -/
structure Run.StayAhead (r s r' s' : Run) : Prop where
  ahead : r'.Ahead s'
  owns : ∀ m, r'.table.owns m → r.table.owns m
  skolems : s.skolems ≤ s'.skolems

theorem Run.StayAhead.trans {r s r₁ s₁ r₂ s₂ : Run} (h : r.StayAhead s r₁ s₁)
    (h' : r₁.StayAhead s₁ r₂ s₂) : r.StayAhead s r₂ s₂ :=
  ⟨h'.ahead, fun m hm => h.owns m (h'.owns m hm), h.skolems.trans h'.skolems⟩

section

variable {r r' s s' : Run}

theorem Run.Ahead.stay (h : r.Ahead s) (hr : r.Idles r') (hs : s.Idles s')
    (hle : r'.skolems ≤ s'.skolems) : r.StayAhead s r' s' := by
  refine ⟨h.idles hr hs hle, fun m hm => ?_, hs.skolems⟩
  rwa [hr.table] at hm

theorem Run.Ahead.stay_agrees (h : r.Ahead s) (hr : r.Agrees r') (hs : s.Agrees s') :
    r.StayAhead s r' s' := by
  refine h.stay hr.idles hs.idles ?_
  rw [hr.skolems, hs.skolems]
  exact h.skolems

end

namespace Action

variable {α β : Type} {x x' y y' : Solve Unit} {r r' s : Run}

/-- Unless steps run out, the actions end alike, and the second run is ahead afterwards. -/
def Tracks (x : Solve Unit) (r : Run) (y : Solve Unit) (s : Run) : Prop :=
  x.Finishes r → y.Finishes s →
    x.EndAlike r y s (fun _ r' _ s' => r.StayAhead s r' s') Run.Ahead

theorem EndAlike.mono {x : Solve α} {y : Solve β} {Q Q' : α → Run → β → Run → Prop}
    {E : Run → Run → Prop} (h : x.EndAlike r y s Q E)
    (hQ : ∀ a r' b s', Q a r' b s' → Q' a r' b s') : x.EndAlike r y s Q' E := by
  rw [endAlike_iff] at h ⊢
  rcases h with ⟨a, r', b, s', hx, hy, h⟩ | h
  · exact .inl ⟨a, r', b, s', hx, hy, hQ _ _ _ _ h⟩
  · exact .inr h

theorem Tracks.lift_bind {a : StateM Run α} {b : StateM Run β} {f : α → Solve Unit}
    {g : β → Solve Unit} (hstep : r.StayAhead s (a r).2 (b s).2)
    (h : (f (a r).1).Tracks (a r).2 (g (b s).1) (b s).2) :
    (liftM a >>= f).Tracks r (liftM b >>= g) s := fun hx hy =>
  EndAlike.mono (h hx hy) fun _ _ _ _ h => hstep.trans h

theorem Tracks.bind (h : x.Tracks r y s)
    (h' : ∀ r₁ s₁, x r = .ok () r₁ → r.StayAhead s r₁ s₁ → x'.Tracks r₁ y' s₁) :
    (do x; x').Tracks r (do y; y') s := by
  intro hx hy
  rw [Finishes, ensures_bind] at hx hy
  have hends := h (hx.mono (fun _ _ _ => trivial) fun _ _ h => h)
    (hy.mono (fun _ _ _ => trivial) fun _ _ h => h)
  rw [endAlike_iff]
  rcases endAlike_iff.1 hends with ⟨_, r₁, _, s₁, hxr, hys, hstay⟩ | ⟨_, _, _, _, hxr, hys, hE⟩
  · have hends' := h' r₁ s₁ hxr hstay (hx.of_ok hxr) (hy.of_ok hys)
    rcases endAlike_iff.1 hends' with
      ⟨_, _, _, _, hxr', hys', hstay'⟩ | ⟨_, _, _, _, hxr', hys', hE⟩
    · exact .inl ⟨_, _, _, _, bind_eq_ok.2 ⟨_, _, hxr, hxr'⟩, bind_eq_ok.2 ⟨_, _, hys, hys'⟩,
        hstay.trans hstay'⟩
    · exact .inr ⟨_, _, _, _, bind_eq_error.2 (.inr ⟨_, _, hxr, hxr'⟩),
        bind_eq_error.2 (.inr ⟨_, _, hys, hys'⟩), hE⟩
  · exact .inr ⟨_, _, _, _, bind_eq_error.2 (.inl hxr), bind_eq_error.2 (.inl hys), hE⟩

theorem Tracks.congr {x₁ y₁ : Solve Unit} (hx : x r = x₁ r) (hy : y s = y₁ s)
    (h : x₁.Tracks r y₁ s) : x.Tracks r y s := by
  unfold Tracks Finishes Ensures EndAlike at *
  rwa [hx, hy]

/-- The first action is done, and the second one touches no table. -/
theorem tracks_of_idles (hx : x r = .ok () r') (hr : r.Agrees r') (hy : Action.Idles y s)
    (h : r.Ahead s) : x.Tracks r y s := by
  intro _ hfy
  have hok := Ensures.and hfy hy
  unfold EndAlike
  rw [hx]
  cases hys : y s with
  | error stop s' => exact absurd (hok.of_error hys).2 (hok.of_error hys).1
  | ok _ s' =>
    have hs := (hok.of_ok hys).2
    refine h.stay hr.idles hs ?_
    rw [hr.skolems]
    exact h.skolems.trans hs.skolems

end Action

/-- The run `s` is ahead of `r`, and the constant `g c` of `s` stands for the constant `c` of
`r`. -/
structure Run.Abreast (g : Equiv.Perm Int) (r s : Run) : Prop where
  valid : r.Valid Ty.Any
  ahead : r.Ahead s
  fixes : r.Fixes g

/-- The type `t'` of `s` stands for the type `t` of `r`, in which nothing is unknown. -/
structure Ty.Stands (g : Equiv.Perm Int) (r s : Run) (t t' : Ty) : Prop where
  isOver : t.Over r
  isOver' : t'.Over s
  whole : (r.table.expand t).Whole
  like : t.Like g t'

section

variable {g : Equiv.Perm Int} {r r' s s' : Run} {a b a' b' p q p' q' t t' u : Ty} {m : MVar}
  {n : Nat}

theorem Run.Abreast.stay (h : r.Abreast g s) (hr : r'.Valid Ty.Any) (hs : r.StayAhead s r' s') :
    r'.Abreast g s' := ⟨hr, hs.ahead, fun m hm => h.fixes m (hs.owns m hm)⟩

theorem Run.Abreast.like (h : r.Abreast g s) : r.table.Like g s.table :=
  h.ahead.like h.valid h.fixes

theorem Run.Abreast.prune (h : r.Abreast g s) (ht : t.Like g t') :
    (RankN.prune t r).2.Abreast g (RankN.prune t' s).2 where
  valid := h.valid.prune t
  ahead := h.ahead.prune h.valid h.fixes ht
  fixes m hm := h.fixes m (((prune_spec h.valid.acyclic t).shortens.owns m).1 hm)

theorem Ty.Stands.parts (h : t.Stands g r s t') (hp : t.Parts t' p p' q q') :
    p.Stands g r s p' ∧ q.Stands g r s q' := by
  have ho := hp.leaves.1 h.isOver
  have ho' := hp.symm.leaves.1 h.isOver'
  have hlike := hp.like h.like
  have hw : (r.table.expand p).Whole ∧ (r.table.expand q).Whole := by
    cases hp with
    | arrow | app => exact h.whole
  exact ⟨⟨ho.1, ho'.1, hw.1, hlike.1⟩, ⟨ho.2, ho'.2, hw.2, hlike.2⟩⟩

/-- A type stands for another one in all later runs, as long as nothing unknown turns up. -/
theorem Ty.Stands.stay (ht : t.Stands g r s t') (h : r.Abreast g s) (he : r.Extends r')
    (hs : r.StayAhead s r' s') (hw : (r'.table.expand t).Whole) : t.Stands g r' s' t' := by
  refine ⟨he.isOver ht.isOver, ht.isOver'.mono (fun m hm => ?_) fun c hc => ?_, hw, ht.like⟩
  · exact hs.ahead.owns.2 (he.owns m (h.ahead.owns.1 hm))
  · exact ⟨hc.1, lt_of_lt_of_le hc.2 (Int.ofNat_le.2 hs.skolems)⟩

theorem Ty.Stands.agrees (ht : t.Stands g r s t') (h : r.Abreast g s) (hr : r.Agrees r')
    (hs : s.Agrees s') : t.Stands g r' s' t' :=
  ht.stay h hr.extends_ (h.ahead.stay_agrees hr hs) (by rw [hr.table]; exact ht.whole)

/-- The solution of a metavariable stands for the solution that it has in the other run. -/
theorem Ty.Stands.solution (hm : (Ty.mvar m).Stands g r s (.mvar m)) (h : r.Abreast g s)
    (hu : r.table.solution? m = some u) :
    ∃ u', s.table.solution? m = some u' ∧ u.Stands g r s u' := by
  obtain ⟨u', hu', hlike⟩ := h.like.solved hu
  have hs := h.ahead.valid h.valid
  refine ⟨u', hu', (h.valid.solutions m u hu).isOver, (hs.solutions m u' hu').isOver, ?_, hlike⟩
  rw [← h.valid.acyclic.expand_solved hu]
  exact hm.whole

theorem Ty.built_relabel {U : Prop} {f : MVar → MVar} {g : Int → Int} {t : Ty} :
    (t.relabel f g).Built U ↔ t.Built U := by
  induction t with
  | all n x body ih => exact ih
  | arrow n p q ihp ihq => exact and_congr ihp ihq
  | app n p q ihp ihq => exact and_congr ihp ihq
  | _ => exact Iff.rfl

/-- Two types that stand for one type are alike. -/
theorem Ty.Stands.same (ha : t.Stands g r s a) (hb : t.Stands g r s b) (h : r.Abreast g s) :
    s.Same a b := by
  have hs := h.ahead.valid h.valid
  refine ⟨hs, ha.isOver', hb.isOver', ?_, ha.like.of_common hb.like⟩
  rw [h.like.expand h.valid.acyclic ha.like]
  exact Ty.built_relabel.2 ha.whole

/-! ### Errors and solutions -/

theorem mismatch_tracks (h : r.Abreast g s) (ha : a.Like g a') (hb : b.Like g b') :
    (mismatch a b : Solve Unit).Tracks r (mismatch a' b') s := fun _ _ =>
  ⟨rfl, ((h.prune ha).prune hb).ahead⟩

theorem settle_eq (m : MVar) (t : Ty) (r : Run) :
    settle m t r = match obstacle? r.table m t with
      | some why => .error (.error (.escape m (prune t r).1 why)) (prune t r).2
      | none => assign m t r := by
  show (match obstacle? r.table m t with
    | some why => (do
      let t ← prune t
      throw (Stop.error (TypeError.escape m t why)) : Solve Unit)
    | none => assign m t) r = _
  cases obstacle? r.table m t with
  | some why => rfl
  | none => rfl

theorem assign_eq (ho : r.table.owns m) (hm : r.table.solution? m = none) (ht : t ≠ .absent) :
    assign m t r = .ok () (r.solved m t) := by
  simp [assign, ho, ht, Table.solved, hm, Run.solved]

/-- The same stands in the way of types that are alike. -/
theorem obstacle?_like (h : r.Abreast g s) (ho : r.table.owns m) (hm : r.table.solution? m = none)
    (ht : t.Stands g r s t') : obstacle? s.table m t' = obstacle? r.table m t := by
  have hs := h.ahead.valid h.valid
  rw [obstacle?_eq hs.acyclic (h.like.unsolved hm), obstacle?_eq h.valid.acyclic hm,
    h.like.expand h.valid.acyclic ht.like]
  exact obstacle?_relabel h.fixes.faithful ho (Ty.Over.expand h.valid ht.isOver).1

/-- Solving a metavariable. -/
theorem settle_tracks (h : r.Abreast g s) (ho : r.table.owns m) (hm : r.table.solution? m = none)
    (ht : t.Stands g r s t') : (settle m t).Tracks r (settle m t') s := by
  intro _ _
  unfold EndAlike
  rw [settle_eq, settle_eq, obstacle?_like h ho hm ht]
  cases hob : obstacle? r.table m t with
  | some why => exact ⟨rfl, (h.prune ht.like).ahead⟩
  | none =>
    have hab : t ≠ .absent := by
      intro habs
      subst habs
      exact ht.whole
    have hab' : t' ≠ .absent := by
      intro habs
      subst habs
      cases ht.like
      exact hab rfl
    obtain ⟨hocc, hfit⟩ := (obstacle?_eq_none h.valid.acyclic hm).1 hob
    have hvalid := h.valid.solved Ty.stable_any ho hm ⟨ht.isOver, trivial⟩ hocc hfit
    have howns : ∀ k, (r.solved m t).table.owns k → r.table.owns k := by
      intro k hk
      rwa [Table.owns_iff_mvarAt?, Run.solved, Table.mvarAt?_write, ← Table.owns_iff_mvarAt?] at hk
    simp only [assign_eq ho hm hab, assign_eq (h.ahead.owns.2 ho) (h.like.unsolved hm) hab']
    refine ⟨.of_like hvalid (fun k hk => h.fixes k (howns k hk)) (h.like.write m ht.like)
      h.ahead.mvars h.ahead.skolems, howns, le_rfl⟩

/-! ### Whole types -/

theorem Ty.Whole.settling (ht : t.Whole) (k m : MVar) : ((RankN.settling k t).1 m).Whole := by
  cases settled k t with
  | same =>
    rw [settling_self]
    trivial
  | blocked hne h =>
    rw [settling_blocked hne h]
    trivial
  | absent => exact ht.elim
  | free h hne =>
    rw [settling_free h hne]
    by_cases hmk : m = k
    · simpa [hmk] using ht
    · simp [hmk, Ty.Built]

theorem Ty.Parts.whole (h : t.Parts u p p' q q') (ht : t.Whole) : p.Whole ∧ q.Whole := by
  cases h with
  | arrow | app => exact ht

/-- Where whole types are made equal, only whole types are filled in. -/
theorem Equating.whole {U : MVar → Prop} {σ : MVar → Ty} {v : Option TypeError.Kind}
    (h : Equating U a b σ v) (ha : a.Whole) (hb : b.Whole) (m : MVar) : (σ m).Whole := by
  induction h generalizing m with
  | leaf | clash => trivial
  | first hp _ ih => exact ih (hp.whole ha).1 (hp.symm.whole hb).1 m
  | both hp _ _ ih ih' =>
    have hσ := ih (hp.whole ha).1 (hp.symm.whole hb).1
    exact (hσ m).fill fun k _ => ih' ((hp.whole ha).2.fill fun k _ => hσ k)
      ((hp.symm.whole hb).2.fill fun k _ => hσ k) k
  | @all k k' x y t u c σ v _ _ _ _ ih =>
    have hc : (Ty.skolem c).Whole := trivial
    exact ih (Ty.Built.replace (t := t) ha x hc) (Ty.Built.replace (t := u) hb y hc) m
  | left => exact hb.settling _ m
  | right => exact ha.settling _ m

/-- Unifying whole types leaves whole types whole. -/
theorem whole_of_unifyWithin (hr : r.Valid Ty.Any) (ha : a.Over r) (hb : b.Over r)
    (hwa : (r.table.expand a).Whole) (hwb : (r.table.expand b).Whole)
    (hx : unifyWithin n a b r = .ok () r') (ht : (r.table.expand t).Whole) :
    (r'.table.expand t).Whole := by
  obtain ⟨σ, heq, hfills⟩ := Ensures.of_ok
    ((unifyWithin_equates (fun _ => False) n).1 a b r hr (fun _ h => h.elim) ha hb) hx
  rw [hfills t]
  exact ht.fill fun m _ => heq.whole hwa hwb m

/-! ### Unification -/

/-- With `n` steps, unification and unification without the shortcut go in lockstep. -/
def UnifyTracks (n : Nat) : Prop :=
  ∀ (g : Equiv.Perm Int) (a b a' b' : Ty) (r s : Run), r.Abreast g s → a.Stands g r s a' →
    b.Stands g r s b' → (unifyWithin n a b).Tracks r (unifyFullyWithin n a' b') s

/-- With `n` steps, so does solving a metavariable. -/
def SolveTracks (n : Nat) : Prop :=
  ∀ (g : Equiv.Perm Int) (m : MVar) (t t' : Ty) (r s : Run), r.Abreast g s →
    (Ty.mvar m).Stands g r s (.mvar m) → t.Stands g r s t' →
    (solveWithin n m t).Tracks r (solveFullyWithin n m t') s

/-- Two pairs of parts are unified one after the other. -/
theorem UnifyTracks.both (ih : UnifyTracks n) (h : r.Abreast g s) (hp : p.Stands g r s p')
    (hq : q.Stands g r s q') (ha : a.Stands g r s a') (hb : b.Stands g r s b') :
    (do unifyWithin n p q; unifyWithin n a b : Solve Unit).Tracks r
      (do unifyFullyWithin n p' q'; unifyFullyWithin n a' b') s := by
  refine (ih g p q p' q' r s h hp hq).bind fun r₁ s₁ hx hstay => ?_
  obtain ⟨hr₁, he, -⟩ := Ensures.of_ok ((unifyWithin_keeps Ty.stable_any n).1 p q r h.valid
    ⟨hp.isOver, trivial⟩ ⟨hq.isOver, trivial⟩) hx
  have hw : ∀ {t : Ty}, (r.table.expand t).Whole → (r₁.table.expand t).Whole :=
    whole_of_unifyWithin h.valid hp.isOver hq.isOver hp.whole hq.whole hx
  exact ih g a b a' b' r₁ s₁ (h.stay hr₁ hstay) (ha.stay h he hstay (hw ha.whole))
    (hb.stay h he hstay (hw hb.whole))

/-- Where both runs open quantifiers, the new constants correspond from then on. -/
theorem Ty.Stands.redirect (ht : t.Stands g r s t') :
    t.Like (RankN.redirect g r.skolems s.skolems) t' := by
  refine ht.like.congr fun c hc => (redirect_of_ne ?_ ?_).symm
  · exact (ht.isOver.2 c hc).2.ne
  · have hgc : g c ∈ t'.skolems := by
      rw [ht.like.skolems]
      exact List.mem_map_of_mem hc
    exact (ht.isOver'.2 _ hgc).2.ne

theorem Run.Abreast.redirect (h : r.Abreast g s) :
    r.Fixes (RankN.redirect g r.skolems s.skolems) := by
  intro m hm c hc
  have hlt := (h.valid.scopes m hm c hc).2
  have hgc := h.fixes m hm c hc
  rw [redirect_of_ne hlt.ne, hgc]
  rw [hgc]
  exact (lt_of_lt_of_le hlt (Int.ofNat_le.2 h.ahead.skolems)).ne

/-- Both runs open two quantified types at their next constants. -/
theorem Run.Abreast.opened (h : r.Abreast g s) {k k₁ k' k₁' : Nat} {x y : String}
    (ha : (Ty.all k x a).Stands g r s (.all k' x a'))
    (hb : (Ty.all k₁ y b).Stands g r s (.all k₁' y b')) :
    let o := openBoth x a y b r
    let o' := openBoth x a' y b' s
    r.StayAhead s o.2 o'.2 ∧ ∃ g', o.2.Abreast g' o'.2 ∧ o.1.1.Stands g' o.2 o'.2 o'.1.1 ∧
      o.1.2.Stands g' o.2 o'.2 o'.1.2 := by
  intro o o'
  have ho : r.OpenedBoth x a y b o := h.valid.openedBoth x y ha.isOver hb.isOver
  have ho' : s.OpenedBoth x a' y b' o' :=
    (h.ahead.valid h.valid).openedBoth x y ha.isOver' hb.isOver'
  have hstay : r.StayAhead s o.2 o'.2 := by
    refine h.ahead.stay ho.idles ho'.idles ?_
    rw [ho.skolems, ho'.skolems]
    exact Nat.succ_le_succ h.ahead.skolems
  have hnew := Ty.Like.skolem (g := RankN.redirect g r.skolems s.skolems) r.skolems
  rw [redirect_self] at hnew
  have htables := h.ahead.like h.valid h.redirect
  have hwhole : ∀ {t : Ty} (z : String), t.Whole → (t.replace z (.skolem r.skolems)).Whole :=
    fun z ht => ht.replace z trivial
  refine ⟨hstay, RankN.redirect g r.skolems s.skolems,
    ⟨ho.idles.valid h.valid, hstay.ahead, fun m hm => h.redirect m (hstay.owns m hm)⟩,
    ⟨ho.left, ho'.left, ?_, ?_⟩, ⟨ho.right, ho'.right, ?_, ?_⟩⟩
  · rw [ho.expand_left]
    exact hwhole x ha.whole
  · cases ha.redirect with
    | all hbody => exact openAll_like htables hnew hbody
  · rw [ho.expand_right]
    exact hwhole y hb.whole
  · have htables' : Table.Like (RankN.redirect g r.skolems s.skolems)
        (openAll x a (.skolem r.skolems) (Run.newSkolem r).2).2.table
        (openAll x a' (.skolem s.skolems) (Run.newSkolem s).2).2.table := by
      rw [table_openAll, table_openAll]
      exact htables
    cases hb.redirect with
    | all hbody => exact openAll_like htables' hnew hbody

theorem descend_tracks (hunify : UnifyTracks n) (hsolve : SolveTracks n) (h : r.Abreast g s)
    (ha : a.Stands g r s a') (hb : b.Stands g r s b') :
    (descend (unifyWithin n) (solveWithin n) a b).Tracks r
      (descend (unifyFullyWithin n) (solveFullyWithin n) a' b') s := by
  have hla := ha.like
  have hlb := hb.like
  cases a.meeting b with
  | arrow k p q k₁ p₁ q₁ =>
    cases hla with
    | arrow =>
      cases hlb with
      | arrow =>
        obtain ⟨hp, hq⟩ := ha.parts .arrow
        obtain ⟨hp₁, hq₁⟩ := hb.parts .arrow
        exact hunify.both h hp hp₁ hq hq₁
  | app k f x k₁ f₁ x₁ =>
    cases hla with
    | app =>
      cases hlb with
      | app =>
        obtain ⟨hf, hx⟩ := ha.parts .app
        obtain ⟨hf₁, hx₁⟩ := hb.parts .app
        exact hunify.both h hf hf₁ hx hx₁
  | all k x t k₁ y u =>
    cases hla with
    | all =>
      cases hlb with
      | all =>
        obtain ⟨hstay, g', hab, hl, hr⟩ := h.opened ha hb
        exact fun hx hy => EndAlike.mono (hunify g' _ _ _ _ _ _ hab hl hr hx hy)
          fun _ _ _ _ hst => hstay.trans hst
  | left m =>
    cases hla with
    | mvar =>
      rw [descend_left, descend_left]
      exact hsolve g m b b' r s h ha hb
  | right _ m hne =>
    cases hlb with
    | mvar =>
      have hne' : ∀ k, a' ≠ .mvar k := by
        intro k hk
        subst hk
        cases hla
        exact hne k rfl
      rw [descend_right m hne, descend_right m hne']
      exact hsolve g m a a' r s h hb ha
  | clash _ _ hc =>
    rw [descend_clash hc, descend_clash (hla.clashes hlb hc)]
    exact mismatch_tracks h hla hlb

theorem Ty.SameLeaf.of_like (h : a'.SameLeaf b') (ha : a.Like g a') (hb : b.Like g b') : a = b := by
  cases h with
  | var x =>
    cases ha
    cases hb
    rfl
  | skolem c =>
    cases ha with
    | skolem d =>
      generalize hd : g d = c at hb
      cases hb with
      | skolem e => rw [g.injective hd]

theorem unifyWithin_tracks_step (hunify : UnifyTracks n) (hsolve : SolveTracks n) :
    UnifyTracks (n + 1) := by
  intro g a b a' b' r s h ha hb
  have hr := r.agrees_log (.unify a b)
  have hs := s.agrees_log (.unify a' b')
  by_cases hab : a = b
  · subst hab
    refine tracks_of_idles ?_ hr (unifyFullyWithin_idles (n + 1) (ha.same hb h)) h.ahead
    rw [unifyWithin_succ, if_pos rfl]
    rfl
  · have hsame : ¬ a'.SameLeaf b' := fun hleaf => hab (hleaf.of_like ha.like hb.like)
    rw [unifyWithin_succ, if_neg hab, unifyFullyWithin_succ n hsame]
    have hstay := h.ahead.stay_agrees hr hs
    exact Tracks.lift_bind hstay (descend_tracks hunify hsolve (h.stay (hr.valid h.valid) hstay)
      (ha.agrees h hr hs) (hb.agrees h hr hs))

theorem pursue_tracks (hunify : UnifyTracks n) (hsolve : SolveTracks n) (h : r.Abreast g s)
    (hm : (Ty.mvar m).Stands g r s (.mvar m)) (ht : t.Stands g r s t') :
    (pursue (unifyWithin n) (solveWithin n) m t).Tracks r
      (pursue (unifyFullyWithin n) (solveFullyWithin n) m t') s := by
  have ho : r.table.owns m := by simpa [Ty.Over] using hm.isOver
  by_cases htm : t = .mvar m
  · subst htm
    cases ht.like
    rw [pursue_self, pursue_self]
    exact fun _ _ => h.ahead.stay_agrees ⟨rfl, rfl, rfl⟩ ⟨rfl, rfl, rfl⟩
  have htm' : t' ≠ .mvar m := by
    intro heq
    subst heq
    cases ht.like
    exact htm rfl
  cases hsol : r.table.solution? m with
  | some u =>
    obtain ⟨u', hu', hu⟩ := hm.solution h hsol
    refine .congr (pursue_solved htm hsol) (pursue_solved htm' hu') ?_
    exact hunify g u t u' t' r s h hu ht
  | none =>
    have hsol' := h.like.unsolved hsol
    by_cases hk : ∃ k u, t = .mvar k ∧ r.table.solution? k = some u
    · obtain ⟨k, u, rfl, hu⟩ := hk
      cases ht.like
      obtain ⟨u', hu', hu₁⟩ := ht.solution h hu
      refine .congr (pursue_follow htm hsol hu) (pursue_follow htm' hsol' hu') ?_
      exact hsolve g m u u' r s h hm hu₁
    · have hother : ∀ k, t = .mvar k → r.table.solution? k = none := fun k hkt =>
        Option.eq_none_iff_forall_ne_some.2 fun u hu => hk ⟨k, u, hkt, hu⟩
      have hother' : ∀ k, t' = .mvar k → s.table.solution? k = none := by
        intro k hkt
        subst hkt
        cases ht.like
        exact h.like.unsolved (hother k rfl)
      refine .congr (pursue_settle htm hsol hother) (pursue_settle htm' hsol' hother') ?_
      exact settle_tracks h ho hsol ht

theorem solveWithin_tracks_step (hunify : UnifyTracks n) (hsolve : SolveTracks n) :
    SolveTracks (n + 1) := by
  intro g m t t' r s h hm ht
  have hr := r.agrees_log (.solve m t)
  have hs := s.agrees_log (.solve m t')
  have hstay := h.ahead.stay_agrees hr hs
  rw [solveWithin_succ, solveFullyWithin_succ]
  exact Tracks.lift_bind hstay (pursue_tracks hunify hsolve (h.stay (hr.valid h.valid) hstay)
    (hm.agrees h hr hs) (ht.agrees h hr hs))

/-- **Unification and unification without the shortcut go in lockstep.** -/
theorem unifyWithin_tracks (n : Nat) : UnifyTracks n ∧ SolveTracks n := by
  induction n with
  | zero =>
    refine ⟨fun g a b a' b' r s _ _ _ hx _ => ?_, fun g m t t' r s _ _ _ hx _ => ?_⟩
    · rw [unifyWithin] at hx
      exact absurd rfl hx
    · rw [solveWithin] at hx
      exact absurd rfl hx
  | succ n ih => exact ⟨unifyWithin_tracks_step ih.1 ih.2, solveWithin_tracks_step ih.1 ih.2⟩

end

/-! ## In reachable runs -/

/-- **The shortcut changes nothing.** Let `a` and `b` be built from names, quantifiers, arrows,
applications, constants and metavariables, also read through the table. Then `unify a b` and the
same function without the shortcut both succeed, or both fail with an error of one kind; and both
solve the same metavariables, with solutions that differ in stamps only. Only the count of constants
may be higher without the shortcut. -/
theorem Reachable.unify_like_fully {r : Run} (h : Reachable r) {a b : Ty} (ha : a.Over r)
    (hb : b.Over r) (hwa : (prune a r).1.Whole) (hwb : (prune b r).1.Whole) :
    (unify a b).EndAlike r (unifyFully a b) r (fun _ r' _ s' => r'.Ahead s') Run.Ahead := by
  have hr := h.valid
  have habreast : r.Abreast 1 r := ⟨hr, .refl r, r.fixes_one⟩
  have stands : ∀ {t : Ty}, t.Over r → (prune t r).1.Whole → t.Stands 1 r r t := by
    intro t ht hw
    refine ⟨ht, ht, ?_, .refl t⟩
    rw [← plain_prune hr.acyclic]
    exact Ty.built_plain.2 hw
  have htracks := (unifyWithin_tracks (r.steps [a, b])).1 1 a b a b r r habreast (stands ha hwa)
    (stands hb hwb)
  refine EndAlike.mono (htracks ?_ ?_) fun _ _ _ _ hstay => hstay.ahead
  · exact unify_finishes hr.acyclic a b
  · exact unifyFully_finishes hr.acyclic a b

/-- Unifying `T -> ?0` with `T -> Int`, where `T` is one node for `forall x. x -> x`, opens no
quantifier; without the shortcut it opens `T` at `#0`. Either way it solves `?0` by `Int`. -/
theorem unify_like_fully_of_shared_quantifier :
    let m : MVar := ⟨3, 0, .empty⟩
    let T : Ty := .all 10 "x" (.arrow 11 (.var "x") (.var "x"))
    let a : Ty := .arrow 12 T (.mvar m)
    let b : Ty := .arrow 13 T (.var "Int")
    let r := (Operation.newMVar .empty).run {}
    let r' := (unify a b).after r
    let s' := (unifyFully a b).after r
    unify a b r = .ok () r' ∧ unifyFully a b r = .ok () s' ∧ r'.skolems = 0 ∧ s'.skolems = 1 ∧
      r'.table.solution? m = some (.var "Int") ∧ r'.Ahead s' := by
  intro m T a b r r' s'
  have hreach : Reachable r := by
    have h₀ : Reachable {} := .empty ⟨rfl, rfl, rfl⟩
    exact h₀.step (.newMVar .empty) (show Scope.Over _ _ by decide)
  have hover : a.Over r ∧ b.Over r := by decide
  have hwhole : (prune a r).1.Whole ∧ (prune b r).1.Whole := by decide
  have hu : unify a b r = .ok () r' := Action.eq_ok_after (by decide +kernel)
  have hu' : unifyFully a b r = .ok () s' := Action.eq_ok_after (by decide +kernel)
  have hends : r'.skolems = 0 ∧ s'.skolems = 1 ∧ r'.table.solution? m = some (.var "Int") := by
    decide +kernel
  clear_value r' s' r
  exact ⟨hu, hu', hends.1, hends.2.1, hends.2.2,
    (hreach.unify_like_fully hover.1 hover.2 hwhole.1 hwhole.2).of_ok hu hu'⟩

/-- Let `T` be one node for `forall z. z -> z`, and nothing be allocated. Unifying `T -> forall x. x`
with `T -> forall y. #1` compares `#0` with `#1`. Without the shortcut `T` is opened at `#0`, the next
constant is `#1`, and the types are equal. So the constants in the types must have been allocated. -/
theorem unify_of_colliding_constant :
    let T : Ty := .all 10 "z" (.arrow 11 (.var "z") (.var "z"))
    let a : Ty := .arrow 12 T (.all 13 "x" (.var "x"))
    let b : Ty := .arrow 14 T (.all 15 "y" (.skolem 1))
    (Reachable {} ∧ a.Owned {} ∧ b.Owned {} ∧ (prune a {}).1.Whole ∧ (prune b {}).1.Whole) ∧
      (¬ ∃ r', unify a b {} = .ok () r') ∧ ∃ s', unifyFully a b {} = .ok () s' := by
  intro T a b
  have howned : a.Owned {} ∧ b.Owned {} := by decide
  have hwhole : (prune a {}).1.Whole ∧ (prune b {}).1.Whole := by decide
  refine ⟨⟨.empty ⟨rfl, rfl, rfl⟩, howned.1, howned.2, hwhole.1, hwhole.2⟩, ?_, ?_⟩
  · exact Action.not_ok (by decide +kernel)
  · exact ⟨_, Action.eq_ok_after (by decide +kernel)⟩

end RankN
