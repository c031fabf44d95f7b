import RankN.Proofs.Restamping
import RankN.Proofs.Determinacy

/-!
# Outlines

What a run comes to when it allocates metavariables does not depend on stamps, but the metavariables
it allocates have them. So runs that draw other stamps are compared by their outlines.

**Outlines.** The outline of a type is its expansion, with metavariables that have no stamps. A
table is outlined by the list of its metavariables, each with the outline of what it stands for
(`Table.outlines`). For each step of a run there is a lemma on what becomes of the outlines
(`Run.Becomes`).

**Functions of the outline.** What exposing a function type does can be read off the outlines of the
type and the table: `exposing` does the same to outlines, and `taking` takes several parameters. Both
are functions without a run, so two calls that start from the same outlines end with the same.

Main results: `exposeWithin_becomes` and `take_becomes`.
-/

namespace RankN

open RankN.Action

/-! ## Types without stamps -/

/-- The metavariable without its stamp. -/
def MVar.bare (m : MVar) : MVar := m.restamp fun _ => 0

/-- The type without the stamps of its metavariables. -/
def Ty.bare (t : Ty) : Ty := t.relabel MVar.bare id

@[simp] theorem MVar.scope_bare (m : MVar) : m.bare.scope = m.scope := rfl

/-- The metavariables of a run in the order of their allocation, each with what it stands for. -/
abbrev Outlines := List (MVar × Ty)

namespace Outlines

/-- The metavariable that is allocated next. -/
def next (l : Outlines) (scope : Scope) : MVar := ⟨0, l.length, scope⟩

/-- The outlines with one more metavariable. -/
def add (l : Outlines) (scope : Scope) : Outlines := l ++ [(l.next scope, .mvar (l.next scope))]

/-- The outlines with metavariables filled in. -/
def fill (σ : MVar → Ty) (l : Outlines) : Outlines := l.map fun p => (p.1, p.2.fill σ)

end Outlines

namespace Table

variable {tb tb' : Table} {m k : MVar} {t u : Ty} {x : String}

/-- The expansion of a type, without the stamps of metavariables. -/
def outline (tb : Table) (t : Ty) : Ty := (tb.expand t).bare

/-- The metavariables in the table. -/
def mvarList (tb : Table) : List MVar := tb.slots.toList.map (·.mvar)

/-- The outlines of the metavariables in the table. -/
def outlines (tb : Table) : Outlines := tb.mvarList.map fun m => (m.bare, tb.outline (.mvar m))

@[simp] theorem outline_all (n : Nat) (x : String) (body : Ty) :
    tb.outline (.all n x body) = .all 0 x (tb.outline body) := rfl

@[simp] theorem outline_arrow (n : Nat) (p q : Ty) :
    tb.outline (.arrow n p q) = .arrow 0 (tb.outline p) (tb.outline q) := rfl

@[simp] theorem outline_skolem (c : Int) : tb.outline (.skolem c) = .skolem c := rfl

theorem outline_unsolved (h : tb.solution? m = none) : tb.outline (.mvar m) = .mvar m.bare := by
  rw [outline, expand_unsolved h]
  rfl

theorem Acyclic.outline_solved (ha : tb.Acyclic) (h : tb.solution? m = some t) :
    tb.outline (.mvar m) = tb.outline t := by
  rw [outline, ha.expand_solved h]
  rfl

theorem Acyclic.outline_congr (ha : tb.Acyclic) (hs : ∀ m, tb'.solution? m = tb.solution? m)
    (t : Ty) : tb'.outline t = tb.outline t := congrArg Ty.bare (ha.expand_congr hs t)

/-- Metavariables of one table are told apart without their stamps. -/
theorem bare_inj (hm : tb.owns m) (hk : tb.owns k) (h : m.bare = k.bare) : m = k := by
  have hid : m.bare.id = k.bare.id := congrArg MVar.id h
  exact eq_of_owns hm hk (congrArg Int.toNat hid)

theorem Acyclic.owned_expand (ha : tb.Acyclic)
    (hsol : ∀ m t, tb.solution? m = some t → t.Owned tb) (ht : t.Owned tb) :
    (tb.expand t).Owned tb := ha.leaves_expand_of hsol ht

/-- **Solving fills in** what the outlines say. -/
theorem Acyclic.outline_write (ha : tb.Acyclic) (hsol : ∀ m t, tb.solution? m = some t → t.Owned tb)
    (ho : tb.owns m) (hm : tb.solution? m = none) (ht : m ∉ (tb.expand t).mvars) (hu : u.Owned tb) :
    (tb.write m t).outline u =
      (tb.outline u).fill (Function.update .mvar m.bare (tb.outline t)) := by
  unfold outline
  rw [ha.expand_write ho hm ht]
  refine (Ty.relabel_fill fun k hk => ?_).symm
  have hko : tb.owns k := (ha.owned_expand hsol hu).1 k hk
  by_cases hkm : k = m
  · simp [hkm, Ty.bare]
  · have hne : k.bare ≠ m.bare := fun h => hkm (bare_inj hko ho h)
    simp [hkm, hne]

theorem mvarList_congr (h : ∀ i, tb'.mvarAt? i = tb.mvarAt? i) : tb'.mvarList = tb.mvarList := by
  apply List.ext_getElem?
  intro i
  simpa [mvarList, mvarAt?] using h i

@[simp] theorem mvarList_push (tb : Table) (m : MVar) :
    (tb.push m).mvarList = tb.mvarList ++ [m] := by
  simp [mvarList, push]

theorem length_outlines (tb : Table) : tb.outlines.length = tb.size := by
  simp [outlines, mvarList, size]

end Table

theorem Run.Tidy.owns_of_mem {r : Run} (hr : r.Tidy) {m : MVar} (h : m ∈ r.table.mvarList) :
    r.table.owns m := by
  obtain ⟨i, hi⟩ := List.mem_iff_getElem?.1 h
  have hat : r.table.mvarAt? i = some m := by simpa [Table.mvarList, Table.mvarAt?] using hi
  rw [Table.owns_iff_mvarAt?, hr.ids i m hat]
  exact hat

/-! ## What becomes of the outlines -/

/-- From `r` to `r'`, metavariables were filled in as `σ` says, and the outlines became `l`. -/
structure Run.Becomes (r : Run) (σ : MVar → Ty) (l : Outlines) (r' : Run) : Prop where
  tidy : r'.Tidy
  owns : ∀ m, r.table.owns m → r'.table.owns m
  outline : ∀ t, t.Owned r.table → r'.table.outline t = (r.table.outline t).fill σ
  outlines : r'.table.outlines = l

section

variable {r r' r'' : Run} {σ τ : MVar → Ty} {l l' : Outlines} {m : MVar} {t : Ty}

theorem Run.Becomes.owned (h : r.Becomes σ l r') (ht : t.Owned r.table) : t.Owned r'.table :=
  ht.mono h.owns fun _ h => h

theorem Run.Becomes.trans (h : r.Becomes σ l r') (h' : r'.Becomes τ l' r'') :
    r.Becomes (fun m => (σ m).fill τ) l' r'' where
  tidy := h'.tidy
  owns m hm := h'.owns m (h.owns m hm)
  outline t ht := by rw [h'.outline t (h.owned ht), h.outline t ht, Ty.fill_fill]
  outlines := h'.outlines

theorem Run.Becomes.same (h : r.Becomes .mvar l r') (ht : t.Owned r.table) :
    r'.table.outline t = r.table.outline t :=
  (h.outline t ht).trans (Ty.fill_eq_self fun _ _ => rfl)

/-- A step that only adds metavariables, if any. -/
theorem Run.Becomes.of_outline (hr' : r'.Tidy) (howns : ∀ m, r.table.owns m → r'.table.owns m)
    (h : ∀ t, r'.table.outline t = r.table.outline t) (hl : r'.table.outlines = l) :
    r.Becomes .mvar l r' :=
  ⟨hr', howns, fun t _ => (h t).trans (Ty.fill_eq_self fun _ _ => rfl).symm, hl⟩

/-- A step that leaves metavariables and what they stand for. -/
theorem Run.Becomes.of_shortens (hr' : r'.Tidy) (hat : ∀ i, r'.table.mvarAt? i = r.table.mvarAt? i)
    (h : ∀ t, r'.table.expand t = r.table.expand t) : r.Becomes .mvar r.table.outlines r' := by
  have houtline : ∀ t, r'.table.outline t = r.table.outline t := fun t => congrArg Ty.bare (h t)
  refine .of_outline hr' (fun m hm => ?_) houtline ?_
  · rw [Table.owns_iff_mvarAt?] at hm ⊢
    rwa [hat]
  · simp only [Table.outlines, Table.mvarList_congr hat, houtline]

namespace Run.Tidy

theorem becomes_agrees (hr : r.Tidy) (h : r.Agrees r') : r.Becomes .mvar r.table.outlines r' :=
  .of_shortens (h.tidy hr) (fun i => by rw [h.table]) fun t => by rw [h.table]

theorem becomes_prune (hr : r.Tidy) (t : Ty) :
    r.Becomes .mvar r.table.outlines (RankN.prune t r).2 :=
  .of_shortens (hr.prune t) (prune_spec hr.acyclic t).shortens.mvarAt (expand_prune hr.acyclic t)

theorem bare_newMVar (hr : r.Tidy) (scope : Scope) :
    (Run.newMVar scope r).1.bare = r.table.outlines.next scope := by
  rw [Outlines.next, Table.length_outlines, ← hr.count]
  rfl

theorem becomes_newMVar (hr : r.Tidy) (scope : Scope) :
    r.Becomes .mvar (r.table.outlines.add scope) (Run.newMVar scope r).2 := by
  have hadds := hr.adds_newMVar scope
  have houtline := hr.acyclic.outline_congr hadds.solution
  refine .of_outline (hr.newMVar scope) (fun m hm => (hadds.owns m).2 (.inr hm)) houtline ?_
  have hlist : (Run.newMVar scope r).2.table.mvarList = r.table.mvarList ++ [(Run.newMVar scope r).1] :=
    Table.mvarList_push ..
  simp only [Table.outlines, hlist, List.map_append, List.map_cons, List.map_nil, houtline,
    Outlines.add]
  rw [← houtline, Table.outline_unsolved hadds.unsolved, hr.bare_newMVar]
  rfl

theorem becomes_solved (hr : r.Tidy) (ho : r.table.owns m) (hm : r.table.solution? m = none)
    (ht : t.Owned r.table) (hocc : m ∉ (r.table.expand t).mvars) :
    r.Becomes (Function.update .mvar m.bare (r.table.outline t))
      (r.table.outlines.fill (Function.update .mvar m.bare (r.table.outline t))) (r.solved m t) := by
  have hfill : ∀ u : Ty, u.Owned r.table → (r.solved m t).table.outline u =
      (r.table.outline u).fill (Function.update .mvar m.bare (r.table.outline t)) := fun u hu =>
    hr.acyclic.outline_write hr.solutions ho hm hocc hu
  have hlist : (r.solved m t).table.mvarList = r.table.mvarList :=
    Table.mvarList_congr fun i => Table.mvarAt?_write ..
  refine ⟨hr.solved ho hm ht hocc, (r.extends_solved hm t).owns, hfill, ?_⟩
  rw [Outlines.fill, Table.outlines, Table.outlines, hlist, List.map_map]
  refine List.map_congr_left fun k hk => ?_
  simp [hfill (.mvar k) (by simpa [Ty.Owned] using hr.owns_of_mem hk)]

/-- The body of a quantified type, opened at a type. -/
theorem opened (hr : r.Tidy) (x : String) {body new : Ty} (hbody : body.Owned r.table)
    (hnew : new.Owned r.table) :
    r.Becomes .mvar r.table.outlines (openAll x body new r).2 ∧
      (openAll x body new r).1.Owned (openAll x body new r).2.table ∧
      (openAll x body new r).2.table.outline (openAll x body new r).1 =
        (r.table.outline body).replace x (r.table.outline new) := by
  have hagrees : r.Agrees (openAll x body new r).2 := (subst_restamped x new body r).agrees
  have hb := hr.becomes_agrees hagrees
  refine ⟨hb, hb.owned (leaves_subst hr.solutions hnew hbody), ?_⟩
  rw [hagrees.table]
  exact (congrArg Ty.bare (expand_subst hr.acyclic x new body)).trans (Ty.relabel_replace ..)

end Run.Tidy

end

/-! ## Exposing a function type -/

/-- What exposing comes to: what is filled in, the outlines, and the two parts of the function
type, if there is one. -/
structure Exposure where
  fills : MVar → Ty
  outlines : Outlines
  parts : Option (Ty × Ty)

/-- Exposing an outlined type as a function type. -/
def exposing (scope : Scope) (l : Outlines) : Ty → Exposure
  | .all _ x body => exposing scope (l.add scope) (body.replace x (.mvar (l.next scope)))
  | .arrow _ p q => ⟨.mvar, l, some (p, q)⟩
  | .mvar m =>
    let p := l.next m.scope
    let q := (l.add m.scope).next m.scope
    let σ := Function.update .mvar m (.arrow 0 (.mvar p) (.mvar q))
    ⟨σ, ((l.add m.scope).add m.scope).fill σ, some (.mvar p, .mvar q)⟩
  | _ => ⟨.mvar, l, none⟩
termination_by t => t.size
decreasing_by
  rw [Ty.size_replace rfl]
  exact Nat.lt_succ_self _

namespace Exposure

variable {e : Exposure} {r r₁ : Run} {x : Solve Exposed} {l : Outlines}

/-- A function type was exposed as the exposure says. -/
structure Succeeds (e : Exposure) (r : Run) (ex : Exposed) (r' : Run) : Prop where
  becomes : r.Becomes e.fills e.outlines r'
  parts : e.parts = some (r'.table.outline ex.param, r'.table.outline ex.rest)
  param : ex.param.Owned r'.table
  rest : ex.rest.Owned r'.table

/-- There is no function type, as the exposure says. -/
structure Fails (e : Exposure) (r : Run) (why : TypeError) (r' : Run) : Prop where
  becomes : r.Becomes e.fills e.outlines r'
  parts : e.parts = none
  kind : why.kind = .notFunction

/-- The action ends as the exposure says, unless its steps run out. -/
def Describes (e : Exposure) (x : Solve Exposed) (r : Run) : Prop :=
  x.Ensures r (e.Succeeds r) fun
    | .error why, r' => e.Fails r why r'
    | .fault f, _ => f = .cyclic

/-- Metavariables may have been added before. -/
theorem Describes.after (h : e.Describes x r₁) (hr : r.Becomes .mvar l r₁) :
    x.Ensures r₁ (e.Succeeds r) fun
      | .error why, r' => e.Fails r why r'
      | .fault f, _ => f = .cyclic := by
  refine Ensures.mono h (fun ex r' h => ⟨hr.trans h.becomes, h.parts, h.param, h.rest⟩)
    fun stop r' h => ?_
  cases stop with
  | error why => exact ⟨hr.trans h.becomes, h.parts, h.kind⟩
  | fault f => exact h

end Exposure

section

variable {r : Run} {m : MVar} {t : Ty} {scope : Scope}

/-- Allocating a metavariable, and what it does to the outlines. -/
theorem ensures_newMVar_bind {ε α : Type} {f : MVar → Action ε α} {Q : α → Run → Prop}
    {E : Stop ε → Run → Prop} (hr : r.Tidy)
    (h : ∀ m r₁, r.Adds scope m r₁ → r.Becomes .mvar (r.table.outlines.add scope) r₁ →
      m.bare = r.table.outlines.next scope → (f m).Ensures r₁ Q E) :
    (liftM (Run.newMVar scope) >>= f).Ensures r Q E :=
  ensures_bind.2 <| ensures_lift.2 <|
    h _ _ (hr.adds_newMVar scope) (hr.becomes_newMVar scope) (hr.bare_newMVar scope)

theorem ensures_newArrow_bind {ε α : Type} {f : Ty → Action ε α} {Q : α → Run → Prop}
    {E : Stop ε → Run → Prop} {p q : Ty}
    (h : ∀ n r₁, r.Agrees r₁ → (f (.arrow n p q)).Ensures r₁ Q E) :
    (liftM (Run.newArrow p q) >>= f).Ensures r Q E :=
  ensures_bind.2 (ensures_lift.2 (h _ _ ⟨rfl, rfl, rfl⟩))

/-- An unsolved metavariable becomes a function type between two new ones. -/
theorem exposeMVar_becomes (hr : r.Tidy) (ho : r.table.owns m) (hm : r.table.solution? m = none)
    (scope : Scope) :
    (exposing scope r.table.outlines (.mvar m.bare)).Describes (exposeMVar m) r := by
  refine ensures_newMVar_bind hr fun p r₁ hp hbp hpl => ?_
  refine ensures_newMVar_bind hbp.tidy fun q r₂ hq hbq hql => ?_
  refine ensures_newArrow_bind fun n r₃ hag => ?_
  have hb := (hbp.trans hbq).trans (hbq.tidy.becomes_agrees hag)
  have hmp : m ≠ p := hp.ne_of_owns ho
  have hmq : m ≠ q := hq.ne_of_owns (hbp.owns m ho)
  rw [← hag.table] at hb
  have hmu : r₃.table.solution? m = none := by rw [hag.table, hq.solution, hp.solution, hm]
  have hpu : r₃.table.solution? p = none := by rw [hag.table, hq.solution, hp.unsolved]
  have hqu : r₃.table.solution? q = none := by rw [hag.table, hq.unsolved]
  have hpo : (Ty.mvar p).Owned r₃.table := by
    simpa [Ty.Owned, hag.table] using hbq.owns p hp.owned
  have hqo : (Ty.mvar q).Owned r₃.table := by simpa [Ty.Owned, hag.table] using hq.owned
  have hexpand : r₃.table.expand (.arrow n (.mvar p) (.mvar q)) = .arrow 0 (.mvar p) (.mvar q) := by
    rw [Table.expand_arrow, Table.expand_unsolved hpu, Table.expand_unsolved hqu]
  have hsolved := hb.tidy.becomes_solved (hb.owns m ho) hmu (Ty.leaves_arrow.2 ⟨hpo, hqo⟩)
    (show m ∉ (r₃.table.expand (.arrow n (.mvar p) (.mvar q))).mvars by simp [hexpand, hmp, hmq])
  have hout : r₃.table.outline (.arrow n (.mvar p) (.mvar q)) =
      .arrow 0 (.mvar p.bare) (.mvar q.bare) := congrArg Ty.bare hexpand
  refine ensures_bind.2 (ensures_assign (hb.owns m ho) hmu (fun h => by cases h) fun _ => ?_)
  rw [exposing, MVar.scope_bare, ← hpl, ← hbp.outlines, ← hql, ← hbq.outlines, ← hag.table, ← hout]
  refine ⟨hb.trans hsolved, ?_, hsolved.owned hpo, hsolved.owned hqo⟩
  rw [Table.outline_unsolved ((Table.solution?_write_of_ne _ hmp.symm _).trans hpu),
    Table.outline_unsolved ((Table.solution?_write_of_ne _ hmq.symm _).trans hqu)]

/-- **Exposing a function type** does what can be read off the outlines. -/
theorem exposeWithin_becomes (args : List Expr) (n : Nat) (hr : r.Tidy) (ht : t.Owned r.table) :
    (exposing scope r.table.outlines (r.table.outline t)).Describes
      (exposeWithin scope args n t) r := by
  induction n generalizing t r with
  | zero =>
    rw [exposeWithin]
    exact rfl
  | succ n ih =>
    refine ensures_exposeWithin ?_ ?_ ?_ ?_ ?_
    · intro k x body hall
      subst hall
      refine ensures_newMVar_bind hr fun m r₁ hm hb hml => ?_
      have hbody : body.Owned r.table := ht
      have hmo : (Ty.mvar m).Owned r₁.table := by simpa [Ty.Owned] using hm.owned
      obtain ⟨hb', ht', hout⟩ := hb.tidy.opened x (hb.owned hbody) hmo
      rw [hb.same hbody, Table.outline_unsolved hm.unsolved, hml] at hout
      have hexposed := ih hb'.tidy ht'
      rw [hout, hb'.outlines, hb.outlines] at hexposed
      rw [Table.outline_all, exposing]
      exact ensures_bind.2 (ensures_lift.2 (hexposed.after (hb.trans hb')))
    · intro k p q harrow
      subst harrow
      rw [Table.outline_arrow, exposing]
      exact ⟨hr.becomes_agrees ⟨rfl, rfl, rfl⟩, rfl, (Ty.leaves_arrow.1 ht).1, (Ty.leaves_arrow.1 ht).2⟩
    · intro m u hmvar hu
      subst hmvar
      rw [hr.acyclic.outline_solved hu]
      exact ih hr (hr.solutions m u hu)
    · intro m hmvar hm
      subst hmvar
      rw [Table.outline_unsolved hm]
      exact exposeMVar_becomes hr (by simpa [Ty.Owned] using ht) hm scope
    · intro hall harrow hmvar
      have hother : exposing scope r.table.outlines (r.table.outline t) =
          ⟨.mvar, r.table.outlines, none⟩ := by
        cases t with
        | all k x body => exact absurd rfl (hall k x body)
        | arrow k p q => exact absurd rfl (harrow k p q)
        | mvar m => exact absurd rfl (hmvar m)
        | _ => simp [Table.outline, Ty.bare, exposing]
      rw [hother]
      exact ⟨hr.becomes_prune t, rfl, rfl⟩

end

/-! ## Taking parameters -/

/-- What taking parameters comes to: what is filled in, the outlines, the parameters that could be
taken, and what is left, if there were enough of them. -/
structure Taking where
  fills : MVar → Ty
  outlines : Outlines
  types : List Ty
  rest : Option Ty

/-- Taking `n` parameters off an outlined type. -/
def taking (scope : Scope) : Nat → Outlines → Ty → Taking
  | 0, l, t => ⟨.mvar, l, [], some t⟩
  | n + 1, l, t =>
    let e := exposing scope l t
    match e.parts with
    | none => ⟨e.fills, e.outlines, [], none⟩
    | some (p, q) =>
      let k := taking scope n e.outlines q
      ⟨fun m => (e.fills m).fill k.fills, k.outlines, p.fill k.fills :: k.types, k.rest⟩

/-- What is left is as the outline says, or nothing is. -/
inductive Taking.Leaves (tb : Table) : Except (Stop TypeError) Ty → Option Ty → Prop
  | rest {t u : Ty} : tb.outline t = u → Leaves tb (.ok t) (some u)
  | nothing {why : TypeError} : why.kind = .notFunction → Leaves tb (.error (.error why)) none

/-- Parameters were taken as the outline says. -/
structure Taking.Describes (k : Taking) (r : Run) {args : List Expr} (res : Parameters args × Run) :
    Prop where
  becomes : r.Becomes k.fills k.outlines res.2
  types : res.1.types.map res.2.table.outline = k.types
  rest : Taking.Leaves res.2.table res.1.result k.rest

/-- **Taking parameters** does what can be read off the outlines. -/
theorem take_becomes (scope : Scope) (args : List Expr) {r : Run} {t : Ty} (hr : r.Tidy)
    (ht : t.Owned r.table) :
    (taking scope args.length r.table.outlines (r.table.outline t)).Describes r
      (Parameters.take scope t args r) := by
  induction args generalizing r t with
  | nil => exact ⟨hr.becomes_agrees ⟨rfl, rfl, rfl⟩, rfl, .rest rfl⟩
  | cons arg args ih =>
    have hexpose : (exposing scope r.table.outlines (r.table.outline t)).Describes
        (expose scope (arg :: args) t) r :=
      ensures_bind.2 (ensures_get.2 (exposeWithin_becomes _ _ hr ht))
    have hfinishes : (expose scope (arg :: args) t).Finishes r := expose_finishes hr.inOrder _ t
    simp only [Parameters.take, List.length_cons, taking]
    cases hex : expose scope (arg :: args) t r with
    | error stop r₁ =>
      have hstop := hexpose.of_error hex
      cases stop with
      | fault f => exact absurd (congrArg Stop.fault hstop) (hfinishes.of_error hex)
      | error why =>
        simp only [hstop.parts]
        exact ⟨hstop.becomes, rfl, .nothing hstop.kind⟩
    | ok ex r₁ =>
      have hok := hexpose.of_ok hex
      have htake := ih hok.becomes.tidy hok.rest
      rw [hok.becomes.outlines] at htake
      simp only [hok.parts]
      refine ⟨hok.becomes.trans htake.becomes, ?_, htake.rest⟩
      exact congrArg₂ List.cons (htake.becomes.outline _ hok.param) htake.types

end RankN
