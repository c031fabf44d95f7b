import RankN.Proofs.Courses

/-!
# Attainable runs

A stamp says which node it is. A node gets the next stamp of the supply when it is made, so nobody
has hold of a node with a stamp that is still in the supply. A run *holds* a type when the
metavariables in it are its own and all its nodes are made (`Ty.Held`). Skolem constants are numbers,
and a type that is held may mention any of them.

**Attainable runs** (`Attainable`) are those that operations on an empty run lead to, each on types
that are held when it starts. Operations may fail. The supply of the empty run may start anywhere,
which leaves room for the nodes that are made outside.

**What is held stays held** (`Run.Later`), and every type that an operation comes to is held by then:
it was handed in, or is the solution of a metavariable, or a part of such a type, or is made on the
way. Hence all solutions are held.

Main result: `Attainable.orderly`. The table of an attainable run is in order, and all nodes in it
are made.
-/

namespace RankN

open RankN.Action

/-! ## Nodes that are made -/

/-- The run has made all nodes of the type: none of their stamps is still in the supply. -/
def Ty.Made (r : Run) (t : Ty) : Prop := t.stampBound ≤ r.stamps

instance (r : Run) (t : Ty) : Decidable (t.Made r) := inferInstanceAs (Decidable (_ ≤ _))

/-- The run has made all nodes of its solutions. -/
def Run.Made (r : Run) : Prop := ∀ m t, r.table.solution? m = some t → t.Made r

/-- The run holds the type: the metavariables in it are its own, and it has made all the nodes. -/
def Ty.Held (r : Run) (t : Ty) : Prop := t.Owned r.table ∧ t.Made r

instance (r : Run) (t : Ty) : Decidable (t.Held r) := inferInstanceAs (Decidable (_ ∧ _))

/-- A run whose table is in order, with nodes that are made. -/
structure Run.Orderly (r : Run) : Prop where
  tidy : r.Tidy
  made : r.Made

/-- The run `r'` is orderly, and has all metavariables and stamps that `r` has. -/
structure Run.Later (r r' : Run) : Prop extends r'.Orderly where
  stamps : r.stamps ≤ r'.stamps
  owns : ∀ m, r.table.owns m → r'.table.owns m

section

variable {r r' r'' : Run} {t p q new : Ty} {m : MVar} {n i j : Nat} {x : String}

theorem Ty.Made.mono (h : t.Made r) (hs : r.stamps ≤ r'.stamps) : t.Made r' := h.trans hs

theorem Ty.made_all : (Ty.all n x t).Made r ↔ n < r.stamps ∧ t.Made r := max_le_iff

theorem Ty.made_arrow : (Ty.arrow n p q).Made r ↔ n < r.stamps ∧ p.Made r ∧ q.Made r := by
  rw [Made, stampBound, max_le_iff, max_le_iff]
  rfl

theorem Ty.made_app : (Ty.app n p q).Made r ↔ n < r.stamps ∧ p.Made r ∧ q.Made r := made_arrow

theorem Ty.stampBound_all_le (ht : t.stampBound ≤ n) : (Ty.all n x t).stampBound ≤ n + 1 :=
  max_le le_rfl (ht.trans (Nat.le_succ n))

theorem Ty.stampBound_arrow_le (hp : p.stampBound ≤ n) (hq : q.stampBound ≤ n) :
    (Ty.arrow n p q).stampBound ≤ n + 1 :=
  max_le le_rfl (max_le (hp.trans (Nat.le_succ n)) (hq.trans (Nat.le_succ n)))

theorem Ty.stampBound_app_le (hp : p.stampBound ≤ n) (hq : q.stampBound ≤ n) :
    (Ty.app n p q).stampBound ≤ n + 1 := stampBound_arrow_le hp hq

theorem Ty.held_skolem (r : Run) (c : Int) : (Ty.skolem c).Held r :=
  ⟨Ty.leaves_skolem.2 trivial, Nat.zero_le _⟩

theorem Ty.Held.body (h : (Ty.all n x t).Held r) : t.Held r :=
  ⟨Ty.leaves_all.1 h.1, (made_all.1 h.2).2⟩

theorem Ty.Held.parts (h : (Ty.arrow n p q).Held r) : p.Held r ∧ q.Held r := by
  obtain ⟨ho, hm⟩ := h
  rw [Ty.Owned, Ty.leaves_arrow] at ho
  exact ⟨⟨ho.1, (made_arrow.1 hm).2.1⟩, ho.2, (made_arrow.1 hm).2.2⟩

theorem Ty.Held.app_parts (h : (Ty.app n p q).Held r) : p.Held r ∧ q.Held r := parts (n := n) h

namespace Run.Later

theorem trans (h : r.Later r') (h' : r'.Later r'') : r.Later r'' :=
  ⟨h'.toOrderly, h.stamps.trans h'.stamps, fun m hm => h'.owns m (h.owns m hm)⟩

/-- **What is held stays held.** -/
theorem held (h : r.Later r') (ht : t.Held r) : t.Held r' :=
  ⟨ht.1.mono h.owns fun _ h => h, ht.2.mono h.stamps⟩

end Run.Later

/-! ## Copies and pruned types -/

/-- The nodes of a copy are those of the type, those of the type put in, and new ones. -/
theorem Copy.stampBound_le {tb : Table} {t' : Ty} {b : Nat} (h : Copy tb x new t i t' j)
    (ha : tb.Acyclic) (htb : ∀ m u, tb.solution? m = some u → u.stampBound ≤ b) (hb : b ≤ i)
    (hnew : new.stampBound ≤ b) (ht : t.stampBound ≤ b) : t'.stampBound ≤ j := by
  induction h with
  | here => exact hnew.trans hb
  | leaf | bound => exact ht.trans hb
  | all _ _ ih => exact Ty.stampBound_all_le (ih hb (ha.resolve_of htb (max_le_iff.1 ht).2))
  | arrow hp hq ihp ihq =>
    obtain ⟨htp, htq⟩ := max_le_iff.1 (max_le_iff.1 ht).2
    exact Ty.stampBound_arrow_le ((ihp hb (ha.resolve_of htb htp)).trans hq.le)
      (ihq (hb.trans hp.le) (ha.resolve_of htb htq))
  | app hp hq ihp ihq =>
    obtain ⟨htp, htq⟩ := max_le_iff.1 (max_le_iff.1 ht).2
    exact Ty.stampBound_app_le ((ihp hb (ha.resolve_of htb htp)).trans hq.le)
      (ihq (hb.trans hp.le) (ha.resolve_of htb htq))

/-- The type and the solutions that are left have nodes that are made by then. -/
structure Run.Makes (r : Run) (made : Ty × Run) : Prop where
  stamps : r.stamps ≤ made.2.stamps
  run : made.2.Made
  type : made.1.Made made.2

/-- One more node. -/
theorem Run.Makes.next (hs : r.stamps ≤ r'.stamps) (hr' : r'.Made)
    (ht : t.stampBound ≤ r'.stamps + 1) : r.Makes (t, { r' with stamps := r'.stamps + 1 }) :=
  ⟨hs.trans (Nat.le_succ _), fun m u hu => (hr' m u hu).trans (Nat.le_succ _), ht⟩

/-- Writing a type whose nodes are made. -/
theorem Run.Made.write (hr : r.Made) (ht : t.Made r) (m : MVar) :
    Run.Made { r with table := r.table.write m t } := by
  intro k u hu
  by_cases ho : r.table.owns m
  · rcases Run.solution?_solved ho hu with ⟨-, rfl⟩ | hu
    · exact ht
    · exact hr k u hu
  · rw [Table.write, if_neg ho] at hu
    exact hr k u hu

theorem pruneWith_makes {enter : Ty → StateM Run Ty}
    (he : ∀ u (r : Run), r.Made → u.Made r → r.Makes (enter u r)) (hr : r.Made) (ht : t.Made r) :
    r.Makes (pruneWith enter t r) := by
  induction t generalizing r with
  | all n x body ih =>
    have hbody := ih hr (Ty.made_all.1 ht).2
    rw [pruneWith_all]
    split
    · exact ⟨hbody.stamps, hbody.run, ht.mono hbody.stamps⟩
    · exact .next hbody.stamps hbody.run (Ty.stampBound_all_le hbody.type)
  | arrow n p q ihp ihq =>
    obtain ⟨-, htp, htq⟩ := Ty.made_arrow.1 ht
    have hp := ihp hr htp
    have hq := ihq hp.run (htq.mono hp.stamps)
    have hs := hp.stamps.trans hq.stamps
    rw [pruneWith_arrow]
    split
    · exact ⟨hs, hq.run, ht.mono hs⟩
    · exact .next hs hq.run (Ty.stampBound_arrow_le (hp.type.trans hq.stamps) hq.type)
  | app n p q ihp ihq =>
    obtain ⟨-, htp, htq⟩ := Ty.made_app.1 ht
    have hp := ihp hr htp
    have hq := ihq hp.run (htq.mono hp.stamps)
    have hs := hp.stamps.trans hq.stamps
    rw [pruneWith_app]
    split
    · exact ⟨hs, hq.run, ht.mono hs⟩
    · exact .next hs hq.run (Ty.stampBound_app_le (hp.type.trans hq.stamps) hq.type)
  | mvar m =>
    cases hm : r.table.solution? m with
    | none =>
      rw [pruneWith_mvar_none hm]
      exact ⟨le_rfl, hr, ht⟩
    | some u =>
      have hu := he u r hr (hr m u hm)
      rw [pruneWith_mvar_some hm]
      exact ⟨hu.stamps, hu.run.write hu.type m, hu.type⟩
  | var | skolem | unknown | absent => exact ⟨le_rfl, hr, ht⟩

theorem prune_makes (hr : r.Made) (ht : t.Made r) : r.Makes (prune t r) := by
  have main : ∀ n (t : Ty) (r : Run), r.Made → t.Made r → r.Makes (pruneWithin n t r) := by
    intro n
    induction n with
    | zero => exact fun t r hr ht => ⟨le_rfl, hr, ht⟩
    | succ n ih => exact fun t r hr ht => pruneWith_makes ih hr ht
  exact main _ t r hr ht

/-! ## One step of a run -/

namespace Run.Orderly

theorem refl (hr : r.Orderly) : r.Later r := ⟨hr, le_rfl, fun _ h => h⟩

theorem solution (hr : r.Orderly) (hm : r.table.solution? m = some t) : t.Held r :=
  ⟨hr.tidy.solutions m t hm, hr.made m t hm⟩

/-- Recording events and using up stamps. -/
theorem agrees (hr : r.Orderly) (h : r.Agrees r') (hs : r.stamps ≤ r'.stamps) : r.Later r' := by
  refine ⟨⟨h.tidy hr.tidy, fun m t ht => ?_⟩, hs, fun m hm => by rwa [h.table]⟩
  rw [h.table] at ht
  exact (hr.made m t ht).mono hs

theorem log (hr : r.Orderly) (e : Event) : r.Later (Run.log e r).2 :=
  hr.agrees (r.agrees_log e) (r.stamps_log e).ge

theorem newSkolem (hr : r.Orderly) : r.Later (Run.newSkolem r).2 :=
  ⟨⟨⟨hr.tidy.count, hr.tidy.ids, hr.tidy.solutions, hr.tidy.acyclic⟩, hr.made⟩, le_rfl,
    fun _ h => h⟩

theorem newMVar (hr : r.Orderly) (scope : Scope) : r.Later (Run.newMVar scope r).2 := by
  refine ⟨⟨hr.tidy.newMVar scope, fun m t ht => ?_⟩, Nat.le_succ _, (r.extends_newMVar scope).owns⟩
  rw [r.solution?_newMVar] at ht
  exact (hr.made m t ht).mono (Nat.le_succ _)

theorem newArrow (hr : r.Orderly) (hp : p.Held r) (hq : q.Held r) :
    r.Later (Run.newArrow p q r).2 ∧ (Run.newArrow p q r).1.Held (Run.newArrow p q r).2 := by
  have hlater : r.Later (Run.newArrow p q r).2 := hr.agrees ⟨rfl, rfl, rfl⟩ (Nat.le_succ _)
  exact ⟨hlater, Ty.leaves_arrow.2 ⟨hp.1, hq.1⟩, Ty.stampBound_arrow_le hp.2 hq.2⟩

theorem openAll (hr : r.Orderly) (hall : (Ty.all n x t).Held r) (hnew : new.Held r) :
    r.Later (RankN.openAll x t new r).2 ∧
      (RankN.openAll x t new r).1.Held (RankN.openAll x t new r).2 := by
  have hagrees := (subst_restamped x new t r).agrees
  have ht := hall.body
  refine ⟨hr.agrees hagrees (stamps_le_subst x new t r), ?_, ?_⟩
  · have howned : (RankN.openAll x t new r).1.Owned r.table :=
      leaves_subst hr.tidy.solutions hnew.1 ht.1
    exact howned.mono (fun m hm => by rwa [← hagrees.table] at hm) fun _ h => h
  · have ha := hr.tidy.acyclic
    have hcopy := copy_openAll ha x t new
    exact hcopy.stampBound_le ha hr.made le_rfl hnew.2 (ha.resolve_of hr.made ht.2)

theorem prune (hr : r.Orderly) (ht : t.Held r) : r.Later (RankN.prune t r).2 := by
  have hmakes := prune_makes hr.made ht.2
  have hsh := (prune_spec hr.tidy.acyclic t).shortens
  exact ⟨⟨hr.tidy.prune t, hmakes.run⟩, hmakes.stamps, fun m hm => (hsh.owns m).2 hm⟩

theorem solved (hr : r.Orderly) (ho : r.table.owns m) (hm : r.table.solution? m = none)
    (ht : t.Held r) (hocc : m ∉ (r.table.expand t).mvars) : r.Later (r.solved m t) :=
  ⟨⟨hr.tidy.solved ho hm ht.1 hocc, hr.made.write ht.2 m⟩, le_rfl, (r.extends_solved hm t).owns⟩

end Run.Orderly

end

/-! ## Actions -/

namespace Action

variable {ε α β : Type} {x : Action ε α} {f : α → Action ε β} {r r₁ : Run} {Q Q' : α → Run → Prop}

/-- However the action ends, it leads to a later run. -/
def Lasts (x : Action ε α) (r : Run) (Q : α → Run → Prop) : Prop :=
  x.Ensures r (fun a r' => r.Later r' ∧ Q a r') fun _ r' => r.Later r'

theorem Lasts.after (hl : r.Later r₁) (h : x.Lasts r₁ Q) :
    x.Ensures r₁ (fun a r' => r.Later r' ∧ Q a r') fun _ r' => r.Later r' :=
  h.mono (fun _ _ h => ⟨hl.trans h.1, h.2⟩) fun _ _ h => hl.trans h

theorem Lasts.bind {Q' : β → Run → Prop} (hx : x.Lasts r Q)
    (hf : ∀ a r', r.Later r' → Q a r' → (f a).Lasts r' Q') : (x >>= f).Lasts r Q' :=
  ensures_bind.2 <| Ensures.mono hx (fun a r' h => (hf a r' h.1 h.2).after h.1) fun _ _ h => h

theorem lasts_pure {a : α} (hr : r.Orderly) (ha : Q a r) : (pure a : Action ε α).Lasts r Q :=
  ensures_pure.2 ⟨hr.refl, ha⟩

theorem lasts_throw {stop : Stop ε} (hr : r.Orderly) : (throw stop : Action ε α).Lasts r Q :=
  ensures_throw.2 hr.refl

theorem lasts_get_bind {f : Run → Action ε α} (h : (f r).Lasts r Q) : (get >>= f).Lasts r Q :=
  ensures_bind.2 (ensures_get.2 h)

theorem lasts_lift_bind {y : StateM Run β} {f : β → Action ε α} (hl : r.Later (y r).2)
    (h : (f (y r).1).Lasts (y r).2 Q) : (liftM y >>= f : Action ε α).Lasts r Q :=
  ensures_bind.2 (ensures_lift.2 (h.after hl))

theorem lasts_solving {x : Solve α} (h : x.Lasts r Q) (e : Expr) : (solving e x).Lasts r Q :=
  ensures_solving.2 h

theorem Lasts.later_after (h : x.Lasts r Q) : r.Later (x.after r) := by
  unfold Action.after
  cases hx : x r with
  | ok a r' => exact (Ensures.of_ok h hx).1
  | error stop r' => exact Ensures.of_error h hx

/-- Allocating a metavariable. -/
theorem lasts_newMVar_bind {f : MVar → Action ε α} {scope : Scope} (hr : r.Orderly)
    (h : ∀ m r', r.Later r' → r.Adds scope m r' → (Ty.mvar m).Held r' → (f m).Lasts r' Q) :
    (liftM (Run.newMVar scope) >>= f : Action ε α).Lasts r Q := by
  have hl := hr.newMVar scope
  have hadds := hr.tidy.adds_newMVar scope
  refine lasts_lift_bind hl (h _ _ hl hadds ?_)
  exact ⟨Ty.leaves_mvar.2 hadds.owned, Nat.lt_succ_self r.stamps⟩

/-- Opening a quantifier at a new skolem constant. -/
theorem lasts_open_skolem {f : Int → Ty → Action ε α} (hr : r.Orderly) {n : Nat} {x : String}
    {body : Ty} (hall : (Ty.all n x body).Held r)
    (h : ∀ c t r', r.Later r' → t.Held r' → (f c t).Lasts r' Q) :
    (do
      let c ← Run.newSkolem
      let t ← openAll x body (.skolem c)
      f c t : Action ε α).Lasts r Q := by
  have h₁ := hr.newSkolem
  obtain ⟨h₂, ht⟩ := h₁.openAll (h₁.held hall) (Ty.held_skolem _ r.skolems)
  exact lasts_lift_bind h₁ (lasts_lift_bind h₂ (h _ _ _ (h₁.trans h₂) ht))

/-- Opening a quantifier at a new metavariable. -/
theorem lasts_open_mvar {f : Ty → Action ε α} (hr : r.Orderly) {n : Nat} {x : String} {body : Ty}
    {scope : Scope} (hall : (Ty.all n x body).Held r)
    (h : ∀ t r', r.Later r' → t.Held r' → (f t).Lasts r' Q) :
    (do
      let m ← Run.newMVar scope
      let t ← openAll x body (.mvar m)
      f t : Action ε α).Lasts r Q := by
  refine lasts_newMVar_bind hr fun m r₁ h₁ _ hm => ?_
  obtain ⟨h₂, ht⟩ := h₁.openAll (h₁.held hall) hm
  exact lasts_lift_bind h₂ (h _ _ (h₁.trans h₂) ht)

end Action

/-! ## The solver -/

section

variable {r : Run} {m : MVar} {t a b : Ty} {scope : Scope}

theorem mismatch_lasts {Q : Unit → Run → Prop} (hr : r.Orderly) (ha : a.Held r) (hb : b.Held r) :
    (mismatch a b : Solve Unit).Lasts r Q := by
  have h₁ := hr.prune ha
  have h₂ := h₁.prune (h₁.held hb)
  exact lasts_lift_bind h₁ (lasts_lift_bind h₂ (lasts_throw h₂.toOrderly))

theorem settle_lasts (hr : r.Orderly) (hm : r.table.solution? m = none) (ht : t.Held r) :
    (settle m t).Lasts r fun _ _ => True := by
  refine ensures_settle (fun why _ => hr.prune ht) fun hfree => ?_
  refine ensures_assign_of_unsolved hm (fun _ => hr.refl) fun ho => ⟨?_, trivial⟩
  exact hr.solved ho hm ht ((obstacle?_eq_none hr.tidy.acyclic hm).1 hfree).1

/-- **Unification and solving**, with any number of steps. -/
theorem unifyWithin_lasts (n : Nat) :
    (∀ (a b : Ty) (r : Run), r.Orderly → a.Held r → b.Held r →
      (unifyWithin n a b).Lasts r fun _ _ => True) ∧
    ∀ (m : MVar) (t : Ty) (r : Run), r.Orderly → t.Held r →
      (solveWithin n m t).Lasts r fun _ _ => True := by
  induction n with
  | zero =>
    refine ⟨fun a b r hr _ _ => ?_, fun m t r hr _ => ?_⟩
    · rw [unifyWithin]
      exact lasts_throw hr
    · rw [solveWithin]
      exact lasts_throw hr
  | succ n ih =>
    obtain ⟨hunify, hsolve⟩ := ih
    have both : ∀ {p p' q q' : Ty} {r : Run}, r.Orderly → p.Held r ∧ q.Held r →
        p'.Held r ∧ q'.Held r →
        (do unifyWithin n p p'; unifyWithin n q q' : Solve Unit).Lasts r fun _ _ => True := by
      intro p p' q q' r hr hpq hpq'
      refine (hunify p p' r hr hpq.1 hpq'.1).bind fun _ r₁ h₁ _ => ?_
      exact hunify q q' r₁ h₁.toOrderly (h₁.held hpq.2) (h₁.held hpq'.2)
    refine ⟨fun a b r hr ha hb => ?_, fun m t r hr ht => ?_⟩
    · have hlog := hr.log (.unify a b)
      have hr₁ := hlog.toOrderly
      have ha₁ := hlog.held ha
      have hb₁ := hlog.held hb
      apply ensures_unifyWithin
      · exact fun _ => ⟨hlog, trivial⟩
      · rintro k p q k' p' q' rfl rfl
        exact (both hr₁ ha₁.parts hb₁.parts).after hlog
      · rintro k p q k' p' q' rfl rfl
        exact (both hr₁ ha₁.app_parts hb₁.app_parts).after hlog
      · rintro k x t k' y u rfl rfl
        refine Lasts.after hlog (lasts_open_skolem hr₁ ha₁ fun c t' r₂ h₂ ht' => ?_)
        obtain ⟨h₃, hu'⟩ := h₂.openAll (h₂.held hb₁) (Ty.held_skolem r₂ c)
        exact lasts_lift_bind h₃ (hunify _ _ _ h₃.toOrderly (h₃.held ht') hu')
      · rintro m rfl
        exact (hsolve m b _ hr₁ hb₁).after hlog
      · rintro m rfl
        exact (hsolve m a _ hr₁ ha₁).after hlog
      · exact fun _ _ => (mismatch_lasts hr₁ ha₁ hb₁).after hlog
    · have hlog := hr.log (.solve m t)
      have hr₁ := hlog.toOrderly
      have ht₁ := hlog.held ht
      apply ensures_solveWithin
      · exact fun _ => ⟨hlog, trivial⟩
      · exact fun u hu => (hunify u t _ hr₁ (hlog.held (hr.solution hu)) ht₁).after hlog
      · exact fun k u _ _ hu => (hsolve m u _ hr₁ (hlog.held (hr.solution hu))).after hlog
      · intro hm _ _
        rw [← r.table_log (.solve m t)] at hm
        exact (settle_lasts hr₁ hm ht₁).after hlog

theorem unify_lasts (hr : r.Orderly) (ha : a.Held r) (hb : b.Held r) :
    (unify a b).Lasts r fun _ _ => True :=
  lasts_get_bind ((unifyWithin_lasts _).1 a b r hr ha hb)

theorem solve_lasts (hr : r.Orderly) (m : MVar) (ht : t.Held r) :
    (solve m t).Lasts r fun _ _ => True :=
  lasts_get_bind ((unifyWithin_lasts _).2 m t r hr ht)

theorem subsumeWithin_lasts (n : Nat) (hr : r.Orderly) (ha : a.Held r) (hb : b.Held r) :
    (subsumeWithin n scope a b).Lasts r fun _ _ => True := by
  induction n generalizing scope a b r with
  | zero =>
    rw [subsumeWithin]
    exact lasts_throw hr
  | succ n ih =>
    have hlog := hr.log (.subsume a b)
    have hr₁ := hlog.toOrderly
    have ha₁ := hlog.held ha
    have hb₁ := hlog.held hb
    apply ensures_subsumeWithin
    · rintro k x t rfl
      refine Lasts.after hlog (lasts_open_skolem hr₁ hb₁ fun c t' r₂ h₂ ht' => ?_)
      exact ih h₂.toOrderly (h₂.held ha₁) ht'
    · rintro k x t rfl
      refine Lasts.after hlog (lasts_open_mvar hr₁ ha₁ fun t' r₂ h₂ ht' => ?_)
      exact ih h₂.toOrderly ht' (h₂.held hb₁)
    · exact fun _ _ => (unify_lasts hr₁ ha₁ hb₁).after hlog

theorem subsume_lasts (hr : r.Orderly) (ha : a.Held r) (hb : b.Held r) :
    (subsume scope a b).Lasts r fun _ _ => True :=
  lasts_get_bind (subsumeWithin_lasts _ hr ha hb)

/-- The arrow that a metavariable is solved by is between new metavariables, so it does not mention
the metavariable itself. -/
theorem exposeMVar_lasts (hr : r.Orderly) (ho : r.table.owns m) (hm : r.table.solution? m = none) :
    (exposeMVar m).Lasts r fun ex r' => ex.param.Held r' ∧ ex.rest.Held r' := by
  refine lasts_newMVar_bind hr fun p r₁ h₁ hp hph => ?_
  refine lasts_newMVar_bind h₁.toOrderly fun q r₂ h₂ hq hqh => ?_
  obtain ⟨h₃, harrow⟩ := h₂.newArrow (h₂.held hph) hqh
  refine lasts_lift_bind h₃ ?_
  have hmo : r₂.table.owns m := h₂.owns m (h₁.owns m ho)
  have hmu : r₂.table.solution? m = none := (hq.solution m).trans ((hp.solution m).trans hm)
  have hocc : m ∉ (r₂.table.expand (.arrow r₂.stamps (.mvar p) (.mvar q))).mvars := by
    rw [hp.expand_arrow hq]
    simp [hp.ne_of_owns ho, hq.ne_of_owns (h₁.owns m ho)]
  refine ensures_bind.2 (ensures_assign hmo hmu (fun h => by cases h) fun _ => ?_)
  have h₄ := h₃.solved hmo hmu harrow hocc
  exact ⟨h₄, h₄.held (h₃.held (h₂.held hph)), h₄.held (h₃.held hqh)⟩

theorem exposeWithin_lasts (args : List Expr) (n : Nat) (hr : r.Orderly) (ht : t.Held r) :
    (exposeWithin scope args n t).Lasts r fun ex r' => ex.param.Held r' ∧ ex.rest.Held r' := by
  induction n generalizing t r with
  | zero =>
    rw [exposeWithin]
    exact lasts_throw hr
  | succ n ih =>
    apply ensures_exposeWithin
    · rintro k x body rfl
      exact lasts_open_mvar hr ht fun t' r₁ h₁ ht' => ih h₁.toOrderly ht'
    · rintro k p q rfl
      exact ⟨hr.refl, ht.parts⟩
    · rintro m u rfl hu
      exact ih hr (hr.solution hu)
    · rintro m rfl hm
      exact exposeMVar_lasts hr (Ty.leaves_mvar.1 ht.1) hm
    · exact fun _ _ _ => hr.prune ht

theorem takeAll_lasts (args : List Expr) (hr : r.Orderly) (ht : t.Held r) :
    (Parameters.takeAll scope t args).Lasts r fun ps r' =>
      (∀ p ∈ ps.1, p.Held r') ∧ ps.2.Held r' := by
  induction args generalizing t r with
  | nil =>
    rw [Parameters.takeAll_nil]
    exact lasts_pure hr ⟨by simp, ht⟩
  | cons arg args ih =>
    rw [Parameters.takeAll_cons]
    refine Lasts.bind (lasts_get_bind (exposeWithin_lasts (arg :: args) _ hr ht))
      fun ex r₁ h₁ hex => ?_
    refine (ih h₁.toOrderly hex.2).bind fun ps r₂ h₂ hps => ?_
    exact lasts_pure h₂.toOrderly ⟨List.forall_mem_cons.2 ⟨h₂.held hex.1, hps.1⟩, hps.2⟩

end

/-! ## Inference -/

section

variable {r r' : Run} {names : Names} {scope : Scope} {e : Expr} {t : Ty}

theorem skolemizeWithin_lasts (e : Expr) (n : Nat) (hr : r.Orderly) (ht : t.Held r) :
    (skolemizeWithin e n scope t).Lasts r fun p r' => p.2.Held r' := by
  induction n generalizing scope t r with
  | zero =>
    rw [skolemizeWithin_zero]
    exact lasts_throw hr
  | succ n ih =>
    have hlog := hr.log (.check e t)
    have hr₁ := hlog.toOrderly
    have ht₁ := hlog.held ht
    apply ensures_skolemizeWithin
    · rintro m u rfl hu
      exact (ih hr₁ (hlog.held (hr.solution hu))).after hlog
    · rintro k x body rfl
      refine Lasts.after hlog (lasts_open_skolem hr₁ ht₁ fun c t' r₂ h₂ ht' => ?_)
      exact ih h₂.toOrderly ht'
    · exact fun _ _ => ⟨hlog, ht₁⟩

theorem skolemize_lasts (e : Expr) (hr : r.Orderly) (ht : t.Held r) :
    (skolemize e scope t).Lasts r fun p r' => p.2.Held r' :=
  lasts_get_bind (skolemizeWithin_lasts e _ hr ht)

/-- The run holds the types of all names and all annotations in the expression. -/
structure Run.Provides (r : Run) (names : Names) (e : Expr) : Prop where
  names : names.Every (·.Held r)
  annotations : e.Every (·.Held r)

theorem Run.Later.provides (h : r.Later r') (hg : r.Provides names e) : r'.Provides names e :=
  ⟨hg.names.mono fun _ ht => h.held ht, hg.annotations.mono fun _ ht => h.held ht⟩

/-- Checking an expression leads to a later run. -/
def CheckLasts (e : Expr) : Prop :=
  ∀ (names : Names) (scope : Scope) (t : Ty) (r : Run), r.Orderly → r.Provides names e → t.Held r →
    (check names scope e t).Lasts r fun _ _ => True

/-- Synthesizing a type leads to a later run, which holds the type. -/
def SynthLasts (e : Expr) : Prop :=
  ∀ (names : Names) (scope : Scope) (r : Run), r.Orderly → r.Provides names e →
    (synth names scope e).Lasts r fun t r' => t.Held r'

theorem checkArgs_lasts {args : List Expr} {params : List Ty} (hargs : ∀ a ∈ args, CheckLasts a)
    (hr : r.Orderly) (hg : ∀ a ∈ args, r.Provides names a) (hparams : ∀ p ∈ params, p.Held r) :
    (checkArgs names scope args params).Lasts r fun _ _ => True := by
  induction args generalizing params r with
  | nil => exact lasts_pure hr trivial
  | cons a args ih =>
    cases params with
    | nil => exact lasts_pure hr trivial
    | cons p params =>
      rw [checkArgs_cons]
      simp only [List.forall_mem_cons] at hargs hg hparams
      refine (hargs.1 names scope p r hr hg.1 hparams.1).bind fun _ r₁ h₁ _ => ?_
      exact ih hargs.2 h₁.toOrderly (fun b hb => h₁.provides (hg.2 b hb))
        fun q hq => h₁.held (hparams.2 q hq)

/-- The head of an application is synthesized and its parameters are taken. -/
theorem head_lasts {α : Type} {k : List Ty × Ty → Infer α} {Q : α → Run → Prop}
    (hsynth : SynthLasts e.head) (hr : r.Orderly) (hg : r.Provides names e)
    (h : ∀ ps r', r.Later r' → (∀ p ∈ ps.1, p.Held r') → ps.2.Held r' → (k ps).Lasts r' Q) :
    (do
      let ft ← synth names scope e.head
      let ps ← solving e (Parameters.takeAll scope ft e.args)
      k ps : Infer α).Lasts r Q := by
  refine (hsynth names scope r hr ⟨hg.names, hg.annotations.head⟩).bind fun ft r₁ h₁ hft => ?_
  refine (lasts_solving (takeAll_lasts e.args h₁.toOrderly hft) e).bind fun ps r₂ h₂ hps => ?_
  exact h ps r₂ (h₁.trans h₂) hps.1 hps.2

theorem synth_lasts_step (e : Expr)
    (ih : ∀ e', e'.size < e.size → CheckLasts e' ∧ SynthLasts e') : SynthLasts e := by
  intro names scope r hr hg
  have hlog := hr.log (.synth e)
  have hr₁ := hlog.toOrderly
  have hg₁ := hlog.provides hg
  have hother : e.Unruled → (synth names scope e).Lasts r fun t r' => t.Held r' := by
    intro h
    rw [synth_other names scope h]
    exact lasts_lift_bind hlog (lasts_throw hr₁)
  cases e with
  | var x =>
    rw [synth_var]
    refine lasts_lift_bind hlog ?_
    split
    · exact lasts_pure hr₁ (hg₁.names.find ‹_›)
    · exact lasts_throw hr₁
    · exact lasts_throw hr₁
  | fn x body =>
    rw [synth_fn]
    refine lasts_lift_bind hlog ?_
    refine lasts_newMVar_bind hr₁ fun p r₂ h₂ _ hp => ?_
    refine lasts_newMVar_bind h₂.toOrderly fun q r₃ h₃ _ hq => ?_
    have hg₃ := h₃.provides (h₂.provides hg₁)
    refine ((ih body (by simp only [Expr.size]; omega)).1 _ scope _ _ h₃.toOrderly
      ⟨hg₃.names.insert x (h₃.held hp), hg₃.annotations⟩ hq).bind fun _ r₄ h₄ _ => ?_
    exact ensures_lift.2 (h₄.newArrow (h₄.held (h₃.held hp)) (h₄.held hq))
  | app f a =>
    rw [synth_app]
    refine lasts_lift_bind hlog ?_
    refine head_lasts (ih _ (Expr.size_head_lt f a)).2 hr₁ hg₁ fun ps r₂ h₂ hps hrest => ?_
    have hg₂ := h₂.provides hg₁
    refine (checkArgs_lasts (fun b hb => (ih b (Expr.size_lt_of_mem_args hb)).1) h₂.toOrderly
      (fun b hb => ⟨hg₂.names, hg₂.annotations.arg hb⟩) hps).bind fun _ r₃ h₃ _ => ?_
    exact lasts_pure h₃.toOrderly (h₃.held hrest)
  | ann e' t =>
    by_cases ht : t = .absent
    · subst ht
      exact hother (.inr (.inr ⟨e', rfl⟩))
    · rw [synth_ann names scope e' ht]
      refine lasts_lift_bind hlog ?_
      have ht₁ := hg₁.annotations t List.mem_cons_self
      refine ((ih e' (by simp only [Expr.size]; omega)).1 names scope t _ hr₁
        ⟨hg₁.names, fun u hu => hg₁.annotations u (List.mem_cons_of_mem _ hu)⟩ ht₁).bind
        fun _ r₂ h₂ _ => ?_
      exact lasts_pure h₂.toOrderly (h₂.held ht₁)
  | unknown k => exact hother (.inr (.inl ⟨k, rfl⟩))
  | absent => exact hother (.inl rfl)

theorem check_lasts_step (e : Expr) (hs : SynthLasts e)
    (ih : ∀ e', e'.size < e.size → CheckLasts e' ∧ SynthLasts e') : CheckLasts e := by
  intro names scope t r hr hg ht
  rw [check_eq]
  refine (skolemize_lasts e hr ht).bind fun ⟨scope, t⟩ r₁ h₁ ht₁ => ?_
  have hr₁ := h₁.toOrderly
  have hg₁ := h₁.provides hg
  -- What is found is compared with what is expected.
  have hsynth : (do
      let found ← synth names scope e
      solving e (subsume scope found t) : Infer Unit).Lasts r₁ fun _ _ => True := by
    refine (hs names scope r₁ hr₁ hg₁).bind fun found r₂ h₂ hfound => ?_
    exact lasts_solving (subsume_lasts h₂.toOrderly hfound (h₂.held ht₁)) e
  cases e with
  | fn x body =>
    cases t with
    | arrow k p q =>
      exact (ih body (by simp only [Expr.size]; omega)).1 _ _ _ r₁ hr₁
        ⟨hg₁.names.insert x ht₁.parts.1, hg₁.annotations⟩ ht₁.parts.2
    | _ => exact hsynth
  | app f a =>
    refine head_lasts (ih _ (Expr.size_head_lt f a)).2 hr₁ hg₁ fun ps r₂ h₂ hps hrest => ?_
    refine (lasts_solving (subsume_lasts h₂.toOrderly hrest (h₂.held ht₁)) _).bind
      fun _ r₃ h₃ _ => ?_
    have hg₃ := h₃.provides (h₂.provides hg₁)
    exact checkArgs_lasts (fun b hb => (ih b (Expr.size_lt_of_mem_args hb)).1) h₃.toOrderly
      (fun b hb => ⟨hg₃.names, hg₃.annotations.arg hb⟩) fun p hp => h₃.held (hps p hp)
  | _ => exact hsynth

/-- **Inference** leads to a later run, however it ends. -/
theorem infer_lasts (e : Expr) : CheckLasts e ∧ SynthLasts e :=
  infer_induction synth_lasts_step check_lasts_step e

end

/-! ## Operations -/

/-- The property holds of all types that the operation is given. -/
def Operation.Every (P : Ty → Prop) : Operation → Prop
  | .newSkolem | .newMVar _ => True
  | .unify a b | .subsume _ a b => P a ∧ P b
  | .solve _ t | .collect _ t _ | .prune t => P t
  | .check names _ e t => names.Every P ∧ e.Every P ∧ P t
  | .synth names _ e => names.Every P ∧ e.Every P

/-- A run that operations on an empty one lead to, each on types that are held. -/
inductive Attainable : Run → Prop
  | empty {r : Run} : r.Empty → Attainable r
  | step {r : Run} (op : Operation) : Attainable r → op.Every (·.Held r) → Attainable (op.run r)

/-- **One operation.** However it ends, it leads to a later run. -/
theorem Run.Orderly.operation {r : Run} (hr : r.Orderly) {op : Operation}
    (h : op.Every (·.Held r)) : r.Later (op.run r) := by
  cases op with
  | newSkolem => exact hr.newSkolem
  | newMVar scope => exact hr.newMVar scope
  | unify a b => exact (unify_lasts hr h.1 h.2).later_after
  | solve m t => exact (solve_lasts hr m h).later_after
  | subsume scope a b => exact (subsume_lasts hr h.1 h.2).later_after
  | check names scope e t =>
    exact ((infer_lasts e).1 names scope t r hr ⟨h.1, h.2.1⟩ h.2.2).later_after
  | synth names scope e => exact ((infer_lasts e).2 names scope r hr ⟨h.1, h.2⟩).later_after
  | collect scope t args =>
    apply Parameters.ensures_takeAll_run
    exact Ensures.mono (takeAll_lasts args hr h) (fun _ _ h => h.1) fun _ _ h => h
  | prune t => exact hr.prune h

/-- **Attainable runs are orderly.** -/
theorem Attainable.orderly {r : Run} (h : Attainable r) : r.Orderly := by
  induction h with
  | @empty r h =>
    have hvalid : r.Valid Ty.Any := h.valid
    exact ⟨hvalid.tidy, fun m t ht => by simp [h.table] at ht⟩
  | step op _ hop ih => exact (ih.operation hop).toOrderly

end RankN
