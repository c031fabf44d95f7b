import RankN.Proofs.Likeness
import RankN.Proofs.Determinacy
import RankN.Proofs.Unifiers

/-!
# Unification without the shortcut

Unification answers at once if it is given one node twice. `unifyFully` is the same function without
that shortcut: two names or two constants are compared, and every other pair of types is taken
apart, whether it is one node or not. It makes more calls, but the steps that `unify` is given are
enough for it as well (`unifyFully_finishes`).

**Nothing is left to do.** For types that are alike (`Run.Same`), and in particular for one node,
the longer way only opens quantifiers: it solves nothing and writes nothing to the table
(`unifyFullyWithin_idles`). The types must not hold anything of an unknown kind, because only the
shortcut can tell that two such nodes are equal.
-/

namespace RankN

open RankN.Action

/-! ## Unification without the shortcut -/

mutual

/-- Make two types equal within a number of nested steps, and look into them even if they are one
node. -/
def unifyFullyWithin : Nat → Ty → Ty → Solve Unit
  | 0, _, _ => throw (.fault .cyclic)
  | n + 1, a, b => do
    Run.log (.unify a b)
    match a, b with
    | .var x, .var y => if x = y then return () else mismatch (.var x) (.var y)
    | .skolem c, .skolem d => if c = d then return () else mismatch (.skolem c) (.skolem d)
    | .arrow _ p r, .arrow _ p' r' =>
      unifyFullyWithin n p p'
      unifyFullyWithin n r r'
    | .app _ f x, .app _ f' x' =>
      unifyFullyWithin n f f'
      unifyFullyWithin n x x'
    | .all _ x t, .all _ y u =>
      let c ← Run.newSkolem
      let t ← openAll x t (.skolem c)
      let u ← openAll y u (.skolem c)
      unifyFullyWithin n t u
    | .mvar m, t => solveFullyWithin n m t
    | t, .mvar m => solveFullyWithin n m t
    | t, u => mismatch t u

/-- Make a metavariable equal to a type within a number of nested steps, with the function above for
types. -/
def solveFullyWithin : Nat → MVar → Ty → Solve Unit
  | 0, _, _ => throw (.fault .cyclic)
  | n + 1, m, t => do
    Run.log (.solve m t)
    if t = .mvar m then return ()
    else
      let tb := (← get).table
      match tb.solution? m, t with
      | some u, t => unifyFullyWithin n u t
      | none, .mvar m' =>
        match tb.solution? m' with
        | some u => solveFullyWithin n m u
        | none => settle m (.mvar m')
      | none, t => settle m t

end

/-- Make two types equal by solving metavariables, without the shortcut for two types that are one
node. -/
def unifyFully (a b : Ty) : Solve Unit := do unifyFullyWithin ((← get).steps [a, b]) a b

/-- The types are the same name, or the same constant. -/
inductive Ty.SameLeaf : Ty → Ty → Prop
  | var (x : String) : SameLeaf (.var x) (.var x)
  | skolem (c : Int) : SameLeaf (.skolem c) (.skolem c)

theorem unifyFullyWithin_same (n : Nat) {a b : Ty} (h : a.SameLeaf b) :
    unifyFullyWithin (n + 1) a b = (do Run.log (.unify a b); return ()) := by
  cases h with
  | var x => simp [unifyFullyWithin]
  | skolem c => simp [unifyFullyWithin]

theorem unifyFullyWithin_succ (n : Nat) {a b : Ty} (h : ¬ a.SameLeaf b) :
    unifyFullyWithin (n + 1) a b = (do
      Run.log (.unify a b)
      descend (unifyFullyWithin n) (solveFullyWithin n) a b) := by
  cases a.meeting b with
  | clash _ _ hc =>
    rw [descend_clash hc]
    -- Two names or two constants are compared first; for all other pairs there is no rule.
    cases a <;> cases b <;> simp only [Ty.Clashes] at hc <;> try rfl
    case var.var x y =>
      have hne : x ≠ y := fun hxy => h (hxy ▸ .var x)
      simp [unifyFullyWithin, hne]
    case skolem.skolem c d =>
      have hne : c ≠ d := fun hcd => h (hcd ▸ .skolem c)
      simp [unifyFullyWithin, hne]
  | left m => rw [descend_left]; cases b <;> rfl
  | right _ m ha =>
    rw [descend_right m ha]
    cases a with
    | mvar k => exact absurd rfl (ha k)
    | _ => rfl
  | _ => rfl

theorem solveFullyWithin_succ (n : Nat) (m : MVar) (t : Ty) :
    solveFullyWithin (n + 1) m t = (do
      Run.log (.solve m t)
      pursue (unifyFullyWithin n) (solveFullyWithin n) m t) := by
  unfold solveFullyWithin pursue
  rfl

/-- It has enough steps as well. -/
theorem unifyFullyWithin_finishes (n : Nat) :
    UnifyFinishes (unifyFullyWithin n) n ∧ SolveFinishes (solveFullyWithin n) n := by
  induction n with
  | zero => exact finishes_zero _ _
  | succ n ih =>
    refine ⟨fun a b r H k i j hb ha hb' hi hj hn => ?_, fun m t r H k i j hb hm ht hi hj hn => ?_⟩
    · have hlog := r.table_log (.unify a b)
      by_cases hab : a.SameLeaf b
      · rw [unifyFullyWithin_same n hab]
        refine FinishesGrown.log ?_
        rw [← hlog] at hb
        exact hb.grown
      · rw [unifyFullyWithin_succ n hab]
        refine FinishesGrown.log ?_
        rw [← hlog] at hb ha hb'
        exact descend_finishes ih.1 ih.2 a b _ H k i j hb ha hb' hi hj hn
    · rw [solveFullyWithin_succ]
      refine FinishesGrown.log ?_
      rw [← r.table_log (.solve m t)] at hb hm ht
      exact pursue_finishes ih.1 ih.2 m t _ H k i j hb hm ht hi hj hn

theorem unifyFully_finishes {r : Run} (ha : r.table.Acyclic) (a b : Ty) :
    (unifyFully a b).Finishes r :=
  ensures_bind.2 (ensures_get.2 ((unifyFullyWithin_finishes _).1.finishes ha))

/-! ## Types that are alike -/

theorem Ty.Parts.like {g : Int → Int} {t u p p' q q' : Ty} (h : t.Parts u p p' q q')
    (hlike : t.Like g u) : p.Like g p' ∧ q.Like g q' := by
  cases h with
  | arrow =>
    cases hlike with
    | arrow hp hq => exact ⟨hp, hq⟩
  | app =>
    cases hlike with
    | app hp hq => exact ⟨hp, hq⟩

/-- Types of the run that are alike, without anything unknown in them. -/
structure Run.Same (s : Run) (a b : Ty) : Prop where
  valid : s.Valid Ty.Any
  left : a.Over s
  right : b.Over s
  whole : (s.table.expand a).Whole
  like : a.Like id b

section

variable {s s' : Run} {a b p q p' q' t u : Ty}

theorem Run.Same.idles (h : s.Same a b) (hs : s.Idles s') : s'.Same a b where
  valid := hs.valid h.valid
  left := hs.extends_.isOver h.left
  right := hs.extends_.isOver h.right
  whole := by
    rw [hs.table]
    exact h.whole
  like := h.like

theorem Run.Same.parts (h : s.Same t u) (hp : t.Parts u p p' q q') : s.Same p p' ∧ s.Same q q' := by
  have hl := hp.leaves.1 h.left
  have hr := hp.symm.leaves.1 h.right
  have hlike := hp.like h.like
  have hw : (s.table.expand p).Whole ∧ (s.table.expand q).Whole := by
    cases hp with
    | arrow | app => exact h.whole
  exact ⟨⟨h.valid, hl.1, hr.1, hw.1, hlike.1⟩, ⟨h.valid, hl.2, hr.2, hw.2, hlike.2⟩⟩

/-- Opened at one constant, types that are alike stay alike. -/
theorem Run.Same.opened {k k' : Nat} {x : String} (h : s.Same (.all k x t) (.all k' x u)) :
    s.Idles (openBoth x t x u s).2 ∧
      (openBoth x t x u s).2.Same (openBoth x t x u s).1.1 (openBoth x t x u s).1.2 := by
  have ho := h.valid.openedBoth x x (t := t) (u := u) h.left h.right
  have hwhole : (s.table.expand t).Whole := h.whole
  refine ⟨ho.idles, ho.idles.valid h.valid, ho.left, ho.right, ?_, ?_⟩
  · rw [ho.expand_left]
    exact hwhole.replace x trivial
  · have htables : Table.Like id s.table
        (openAll x t (.skolem s.skolems) (Run.newSkolem s).2).2.table := by
      rw [table_openAll]
      exact .refl _
    obtain ⟨-, -, -, -, hlike⟩ := h
    cases hlike with
    | all hbody => exact openAll_like htables (.refl _) hbody

theorem solveFullyWithin_idles (n : Nat) (m : MVar) (s : Run) :
    Action.Idles (solveFullyWithin n m (.mvar m)) s := by
  cases n with
  | zero =>
    rw [solveFullyWithin]
    exact rfl
  | succ n =>
    rw [solveFullyWithin_succ, pursue_self]
    exact (s.agrees_log _).idles

/-- **Unifying types that are alike touches no table**, however much of them is looked into. -/
theorem unifyFullyWithin_idles (n : Nat) (h : s.Same a b) :
    Action.Idles (unifyFullyWithin n a b) s := by
  induction n generalizing a b s with
  | zero =>
    rw [unifyFullyWithin]
    exact rfl
  | succ n ih =>
    have both : ∀ {t u p q p' q' : Ty} {s : Run}, s.Same t u → t.Parts u p p' q q' →
        Action.Idles (do unifyFullyWithin n p p'; unifyFullyWithin n q q') s := by
      intro t u p q p' q' s h hparts
      obtain ⟨hp, hq⟩ := h.parts hparts
      refine ensures_bind.2 ((ih hp).mono (fun _ s₁ h₁ => ?_) fun _ _ h => h)
      exact (ih (hq.idles h₁)).after h₁
    have hlog : s.Idles (Run.log (.unify a b) s).2 := (s.agrees_log _).idles
    have h₁ := h.idles hlog
    by_cases hsame : a.SameLeaf b
    · rw [unifyFullyWithin_same n hsame]
      exact hlog
    rw [unifyFullyWithin_succ n hsame]
    refine ensures_bind.2 (ensures_lift.2 (Action.Idles.after ?_ hlog))
    have hlike := h.like
    cases hlike with
    | var x => exact absurd (.var x) hsame
    | skolem c => exact absurd (.skolem c) hsame
    | unknown => exact h.whole.elim
    | absent => exact h.whole.elim
    | mvar m =>
      rw [descend_left]
      exact solveFullyWithin_idles n m _
    | arrow => exact both h₁ .arrow
    | app => exact both h₁ .app
    | all =>
      obtain ⟨hidles, hopened⟩ := h₁.opened
      exact (ih hopened).after hidles

end

end RankN
