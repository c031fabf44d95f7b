import RankN.Proofs.Models
import RankN.Proofs.Termination

/-!
# Unification fails only where it must

`unify_models` says what is known when unification succeeds. This file has the other half: when it
fails, the two types mean the same in no model of the table, so there was nothing to find.

This needs all metavariables in play to have one scope. Where scopes differ, a metavariable may not
be solved by a type that it could stand for in some model. The metavariables in play are those of a
set `X`: all types that are made equal are *inside* it (`Ty.Inside`), and stay inside it, because
metavariables of `X` are solved by types inside `X` and no others are solved (`Run.Frames`).

Types clash, or an obstacle stands in the way. A constant outside the scope of a metavariable
occurs in none of its meanings, and no type means the same as a larger one that contains it.
-/

namespace RankN

open RankN.Action

/-! ## Meanings and their parts -/

/-- The number of nodes. -/
def Nameless.size : Nameless → Nat
  | .bound _ | .const _ => 1
  | .all body => body.size + 1
  | .arrow p q => p.size + q.size + 1
  | .app f a => f.size + a.size + 1

namespace Ty

variable {t : Ty} {m : MVar}

/-- The meaning of a metavariable is no larger than that of a type it occurs in. -/
theorem size_le_size_read (h : m ∈ t.mvars) (θ : MVar → Nameless) (ctx : List String) :
    (θ m).size ≤ (t.read θ ctx).size := by
  induction t generalizing ctx with
  | all n x body ih => exact (ih h (x :: ctx)).trans (Nat.le_succ _)
  | arrow n p q ihp ihq =>
    simp only [read, Nameless.size]
    rcases List.mem_append.1 h with h | h
    · have := ihp h ctx
      omega
    · have := ihq h ctx
      omega
  | app n f a ihf iha =>
    simp only [read, Nameless.size]
    rcases List.mem_append.1 h with h | h
    · have := ihf h ctx
      omega
    · have := iha h ctx
      omega
  | mvar k =>
    rw [List.mem_singleton.1 h]
    exact le_rfl
  | _ => simp at h

/-- **No type means the same as a larger one that contains it.** -/
theorem read_ne_of_mem (h : m ∈ t.mvars) (hne : t ≠ .mvar m) (θ : MVar → Nameless)
    (ctx : List String) : θ m ≠ t.read θ ctx := by
  suffices hlt : (θ m).size < (t.read θ ctx).size from fun heq => by
    rw [heq] at hlt
    exact Nat.lt_irrefl _ hlt
  cases t with
  | all n x body =>
    have := size_le_size_read (t := body) h θ (x :: ctx)
    simp only [read, Nameless.size]
    omega
  | arrow n p q =>
    simp only [read, Nameless.size]
    rcases List.mem_append.1 h with h | h
    · have := size_le_size_read h θ ctx
      omega
    · have := size_le_size_read h θ ctx
      omega
  | app n f a =>
    simp only [read, Nameless.size]
    rcases List.mem_append.1 h with h | h
    · have := size_le_size_read h θ ctx
      omega
    · have := size_le_size_read h θ ctx
      omega
  | mvar k => exact absurd (by rw [List.mem_singleton.1 h]) hne
  | _ => simp at h

/-- A constant of a type is a constant of its meaning. -/
theorem skolem_mem_atoms_read {id : Int} (h : id ∈ t.skolems) (θ : MVar → Nameless)
    (ctx : List String) : Atom.skolem id ∈ (t.read θ ctx).atoms := by
  induction t generalizing ctx with
  | all n x body ih => exact ih h (x :: ctx)
  | arrow n p q ihp ihq =>
    rcases List.mem_append.1 h with h | h
    · simp [ihp h ctx]
    · simp [ihq h ctx]
  | app n f a ihf iha =>
    rcases List.mem_append.1 h with h | h
    · simp [ihf h ctx]
    · simp [iha h ctx]
  | skolem k => simpa using h
  | _ => simp at h

end Ty

/-! ## The metavariables in play -/

/-- No part of the expansion is absent, and its metavariables are in `X`. -/
structure Ty.Inside (r : Run) (X : MVar → Prop) (t : Ty) : Prop where
  complete : (r.table.expand t).Complete
  mvars : (r.table.expand t).Leaves X fun _ => True

/-- From `r` to `r'`, metavariables in `X` were solved by types inside `X`, and no others were
solved. -/
structure Run.Frames (X : MVar → Prop) (r r' : Run) : Prop where
  outside : ∀ m, ¬ X m → r'.table.solution? m = r.table.solution? m
  inside : ∀ t : Ty, t.Inside r X → t.Inside r' X

section

variable {P : Ty → Prop} {X : MVar → Prop} {r r' r₁ r₂ : Run} {t u : Ty} {m : MVar}

theorem Ty.Inside.of_table_eq (h : t.Inside r X) (ht : r'.table = r.table) : t.Inside r' X := by
  refine ⟨?_, ?_⟩
  · rw [ht]
    exact h.complete
  · rw [ht]
    exact h.mvars

theorem Ty.Inside.arrow {n : Nat} {p q : Ty} (h : (Ty.arrow n p q).Inside r X) :
    p.Inside r X ∧ q.Inside r X := by
  obtain ⟨hp, hq⟩ := Ty.leaves_arrow.1 h.mvars
  exact ⟨⟨h.complete.1, hp⟩, h.complete.2, hq⟩

theorem Ty.Inside.app {n : Nat} {f a : Ty} (h : (Ty.app n f a).Inside r X) :
    f.Inside r X ∧ a.Inside r X := by
  obtain ⟨hf, ha⟩ := Ty.leaves_app.1 h.mvars
  exact ⟨⟨h.complete.1, hf⟩, h.complete.2, ha⟩

theorem Ty.Inside.solution (h : (Ty.mvar m).Inside r X) (ha : r.table.Acyclic)
    (hm : r.table.solution? m = some u) : u.Inside r X := by
  have hexp := ha.expand_solved hm
  exact ⟨hexp ▸ h.complete, hexp ▸ h.mvars⟩

theorem Ty.inside_unsolved (hm : r.table.solution? m = none) : (Ty.mvar m).Inside r X ↔ X m := by
  have hexp := Table.expand_unsolved hm
  constructor
  · intro h
    have hmvars := h.mvars
    rwa [hexp, Ty.leaves_mvar] at hmvars
  · intro h
    refine ⟨?_, ?_⟩
    · rw [hexp]
      trivial
    · rw [hexp]
      exact Ty.leaves_mvar.2 h

theorem Opens.inside {x y : String} {t u t' u' : Ty} (h : Opens P r x t y u t' u' r') {k k' : Nat}
    (ht : (Ty.all k x t).Inside r X) (hu : (Ty.all k' y u).Inside r X) :
    t'.Inside r' X ∧ u'.Inside r' X := by
  have hskolem : (Ty.skolem r.skolems).Complete := trivial
  have htw : (r.table.expand t).Complete := ht.complete
  have huw : (r.table.expand u).Complete := hu.complete
  refine ⟨⟨?_, ?_⟩, ?_, ?_⟩
  · rw [h.expand_left]
    exact htw.replace x hskolem
  · rw [h.expand_left]
    exact Ty.leaves_replace ht.mvars (by simp)
  · rw [h.expand_right]
    exact huw.replace y hskolem
  · rw [h.expand_right]
    exact Ty.leaves_replace hu.mvars (by simp)

namespace Run.Frames

theorem of_table_eq (h : r'.table = r.table) : r.Frames X r' :=
  ⟨fun _ _ => by rw [h], fun _ ht => ht.of_table_eq h⟩

theorem trans (h : r.Frames X r₁) (h' : r₁.Frames X r₂) : r.Frames X r₂ :=
  ⟨fun m hm => (h'.outside m hm).trans (h.outside m hm), fun t ht => h'.inside t (h.inside t ht)⟩

/-- **Solving a metavariable in `X` by a type inside `X`.** -/
theorem solved (ha : r.table.Acyclic) (ho : r.table.owns m) (hm : r.table.solution? m = none)
    (hX : X m) (ht : t.Inside r X) (hocc : m ∉ (r.table.expand t).mvars) :
    r.Frames X (r.solved m t) := by
  have hexp : ∀ u, (r.solved m t).table.expand u =
      (r.table.expand u).fill (Function.update .mvar m (r.table.expand t)) :=
    ha.expand_write ho hm hocc
  refine ⟨fun k hk => ?_, fun u hu => ⟨?_, ?_⟩⟩
  · have hkm : k ≠ m := by
      rintro rfl
      exact hk hX
    exact Table.solution?_write_of_ne _ hkm t
  · rw [hexp]
    apply hu.complete.fill
    intro k _
    by_cases hkm : k = m
    · subst hkm
      simpa using ht.complete
    · simp [Function.update_of_ne hkm, Ty.Built]
  · rw [hexp]
    refine Ty.leaves_fill.2 ⟨fun k hk => ?_, fun _ _ => trivial⟩
    by_cases hkm : k = m
    · subst hkm
      simpa using ht.mvars
    · simpa [Function.update_of_ne hkm] using hu.mvars.1 k hk

end Run.Frames

end

/-! ## Failures -/

section

variable {P : Ty → Prop} {B : String → Prop} {X : MVar → Prop} {r r' : Run} {s : Scope} {t u : Ty}
  {m : MVar} {θ : Assignment}

/-- No model of the run fulfils the condition. -/
def Refutes (r : Run) (C : Assignment → Prop) : Prop := ∀ θ : Assignment, θ.Models r.table → ¬ C θ

/-- Types that clash mean different things. -/
theorem Ty.Clashes.read_ne {a b : Ty} (h : a.Clashes b) (hne : a ≠ b) : θ.read a ≠ θ.read b := by
  cases a <;> cases b <;> simp_all [Assignment.read, Ty.Clashes]

/-- If the action fails, and not for lack of steps, no model fulfils the condition; if it succeeds,
it has solved metavariables in `X` only. -/
def Action.Detects (X : MVar → Prop) (x : Solve Unit) (r : Run) (C : Assignment → Prop) : Prop :=
  x.Ensures r (fun _ r' => r.Frames X r') fun stop _ => stop.inTime → Refutes r C

/-- An obstacle stands in the way in every model. -/
theorem settle_detects (hPB : ∀ t, P t → t.Named B []) (hX : ∀ m, X m → m.scope = s)
    (hr : r.Valid P) (ho : r.table.owns m) (hm : r.table.solution? m = none) (ht : t.Of P r)
    (hne : t ≠ .mvar m) (hunsolved : ∀ k, t = .mvar k → r.table.solution? k = none) (hmX : X m)
    (hti : t.Inside r X) : (settle m t).Detects X r fun θ => θ.type m = θ.read t := by
  refine ensures_settle (fun why hwhy _ θ hθ heq => ?_) fun hfree => ?_
  · have hread : θ.type m = (r.table.expand t).read θ.type [] :=
      heq.trans (hθ.read_expand hr hPB (by simp) (hPB _ ht.mem)).symm
    have hin := obstacle?_eq_some hr.acyclic hm hwhy
    cases why with
    | skolemEscape =>
      obtain ⟨id, hid, hout⟩ := hin
      refine hout (θ.inScope m id ?_)
      rw [hread]
      exact Ty.skolem_mem_atoms_read hid _ _
    | occurs =>
      refine Ty.read_ne_of_mem hin (fun hexp => ?_) _ _ hread
      cases t with
      | mvar k =>
        rw [Table.expand_unsolved (hunsolved k rfl)] at hexp
        exact hne hexp
      | _ => cases hexp
    | scopeMismatch =>
      obtain ⟨k, hk, hscope⟩ := hin
      exact hscope ((hX m hmX).trans (hX k (hti.mvars.1 k hk)).symm)
  · have hocc := ((obstacle?_eq_none hr.acyclic hm).1 hfree).1
    refine ensures_assign ho hm (fun habsent => ?_) fun _ => ?_
    · subst habsent
      exact hti.complete.elim
    · exact Run.Frames.solved hr.acyclic ho hm hmX hti hocc

/-- A step first records itself, which leaves the models as they are. -/
theorem Action.Detects.of_log {ev : Event} {x : Solve Unit} {C D : Assignment → Prop}
    (h : x.Detects X (Run.log ev r).2 C) (hDC : ∀ θ : Assignment, θ.Models r.table → D θ → C θ) :
    x.Ensures (Run.log ev r).2 (fun _ r' => r.Frames X r') fun stop _ =>
      stop.inTime → Refutes r D := by
  refine h.mono (fun _ _ h => ?_) fun stop _ h hstop θ hθ hD => ?_
  · exact (Run.Frames.of_table_eq (r.table_log ev)).trans h
  · exact h hstop θ (by rwa [r.table_log]) (hDC θ hθ hD)

/-- If unification within `n` steps fails, no model fulfils the equation. -/
def UnifyDetects (P : Ty → Prop) (X : MVar → Prop) (n : Nat) : Prop :=
  ∀ (a b : Ty) (r : Run), r.Valid P → a.Of P r → b.Of P r → a.Inside r X → b.Inside r X →
    (unifyWithin n a b).Detects X r fun θ => θ.read a = θ.read b

/-- If solving within `n` steps fails, no model fulfils the equation. -/
def SolveDetects (P : Ty → Prop) (X : MVar → Prop) (n : Nat) : Prop :=
  ∀ (m : MVar) (t : Ty) (r : Run), r.Valid P → r.table.owns m → t.Of P r →
    (Ty.mvar m).Inside r X → t.Inside r X →
    (solveWithin n m t).Detects X r fun θ => θ.type m = θ.read t

/-- Once two parts are equal, the models that are left are those of the equation between them, so a
failure on the other two parts excludes these. -/
theorem UnifyDetects.both (hP : Ty.Stable P) (hPB : ∀ t, P t → t.Named B []) {n : Nat}
    (ih : UnifyDetects P X n) {p p' q q' : Ty} (hr : r.Valid P) (hp : p.Of P r) (hp' : p'.Of P r)
    (hq : q.Of P r) (hq' : q'.Of P r) (hpi : p.Inside r X ∧ q.Inside r X)
    (hpi' : p'.Inside r X ∧ q'.Inside r X) :
    (do unifyWithin n p p'; unifyWithin n q q' : Solve Unit).Detects X r fun θ =>
      θ.read p = θ.read p' ∧ θ.read q = θ.read q' := by
  refine ensures_bind.2 ?_
  refine (Ensures.and (ih p p' r hr hp hp' hpi.1 hpi'.1)
    ((unifyWithin_models hP hPB n).1 p p' r hr hp hp')).mono ?_ ?_
  · rintro _ r₁ ⟨hframes, hr₁, he₁, hnarrow⟩
    refine Ensures.mono (ih q q' r₁ hr₁ (hq.mono hP hr hr₁ he₁) (hq'.mono hP hr hr₁ he₁)
      (hframes.inside q hpi.2) (hframes.inside q' hpi'.2)) (fun _ _ h => hframes.trans h) ?_
    rintro stop _ h hstop θ hθ ⟨heq, heq'⟩
    exact h hstop θ ((hnarrow θ).2 ⟨hθ, heq⟩) heq'
  · rintro stop _ ⟨h, -⟩ hstop θ hθ ⟨heq, -⟩
    exact h hstop θ hθ heq

theorem unifyWithin_detects_step (hP : Ty.Stable P) (hPB : ∀ t, P t → t.Named B []) {n : Nat}
    (hunify : UnifyDetects P X n) (hsolve : SolveDetects P X n) : UnifyDetects P X (n + 1) := by
  intro a b r hr ha hb hai hbi
  have hlog := r.agrees_log (.unify a b)
  have hr₁ := hlog.valid hr
  have ha₁ := hlog.of ha
  have hb₁ := hlog.of hb
  have hai₁ := hai.of_table_eq hlog.table
  have hbi₁ := hbi.of_table_eq hlog.table
  apply ensures_unifyWithin
  · exact fun _ => .of_table_eq hlog.table
  · rintro k p q k' p' q' rfl rfl
    rw [Ty.of_arrow hP] at ha₁ hb₁
    exact (hunify.both hP hPB hr₁ ha₁.1 hb₁.1 ha₁.2 hb₁.2 hai₁.arrow hbi₁.arrow).of_log
      fun θ _ h => by simpa [Assignment.read] using h
  · rintro k f x k' f' x' rfl rfl
    obtain ⟨hf, hx⟩ := ha₁.app hP
    obtain ⟨hf', hx'⟩ := hb₁.app hP
    exact (hunify.both hP hPB hr₁ hf hf' hx hx' hai₁.app hbi₁.app).of_log
      fun θ _ h => by simpa [Assignment.read] using h
  · rintro k x t k' y u rfl rfl
    refine ensures_opens hP hr₁ ha₁ hb₁ fun t' u' r₂ hr₂ _ hopen => ?_
    obtain ⟨hti, hui⟩ := hopen.inside hai₁ hbi₁
    have htable := hopen.table.trans hlog.table
    refine Ensures.mono (hunify t' u' r₂ hr₂ hopen.left hopen.right hti hui) (fun _ _ h => ?_) ?_
    · exact (Run.Frames.of_table_eq htable).trans h
    · intro stop _ h hstop θ hθ heq
      refine h hstop θ (by rwa [htable]) ?_
      rw [← hlog.table] at hθ
      exact (hopen.read_eq_iff hθ hr₁ hr₂ hPB ha₁ hb₁).2 heq
  · rintro m rfl
    exact (hsolve m b _ hr₁ ha₁.owns hb₁ hai₁ hbi₁).of_log fun θ _ h => h
  · rintro m rfl
    exact (hsolve m a _ hr₁ hb₁.owns ha₁ hbi₁ hai₁).of_log fun θ _ h => h.symm
  · intro hne hclash
    unfold mismatch
    simp only [ensures_bind, ensures_lift]
    exact fun _ θ _ => hclash.read_ne hne

theorem solveWithin_detects_step (hPB : ∀ t, P t → t.Named B []) (hX : ∀ m, X m → m.scope = s)
    {n : Nat} (hunify : UnifyDetects P X n) (hsolve : SolveDetects P X n) :
    SolveDetects P X (n + 1) := by
  intro m t r hr ho ht hmi hti
  have hlog := r.agrees_log (.solve m t)
  have hr₁ := hlog.valid hr
  have ht₁ := hlog.of ht
  have ho₁ := hlog.extends_.owns m ho
  have hmi₁ := hmi.of_table_eq hlog.table
  have hti₁ := hti.of_table_eq hlog.table
  apply ensures_solveWithin
  · exact fun _ => .of_table_eq hlog.table
  · intro u hu
    have hui := (hmi.solution hr.acyclic hu).of_table_eq hlog.table
    refine (hunify u t _ hr₁ (hlog.of (hr.solutions m u hu)) ht₁ hui hti₁).of_log fun θ hθ h => ?_
    rw [← hθ m u hu, h]
  · rintro k u - rfl hu
    have hui := (hti.solution hr.acyclic hu).of_table_eq hlog.table
    refine (hsolve m u _ hr₁ ho₁ (hlog.of (hr.solutions k u hu)) hmi₁ hui).of_log fun θ hθ h => ?_
    rw [h, ← hθ k u hu]
    rfl
  · intro hu hne hunsolved
    rw [← hlog.table] at hu hunsolved
    have hmX := (Ty.inside_unsolved hu).1 hmi₁
    exact (settle_detects hPB hX hr₁ ho₁ hu ht₁ hne hunsolved hmX hti₁).of_log fun θ _ h => h

/-- **If unification or solving fails, no model fulfils the equation.** -/
theorem unifyWithin_detects (hP : Ty.Stable P) (hPB : ∀ t, P t → t.Named B [])
    (hX : ∀ m, X m → m.scope = s) (n : Nat) : UnifyDetects P X n ∧ SolveDetects P X n := by
  induction n with
  | zero =>
    refine ⟨fun a b r _ _ _ _ _ => ?_, fun m t r _ _ _ _ _ => ?_⟩
    · rw [unifyWithin]
      exact fun h => absurd rfl h
    · rw [solveWithin]
      exact fun h => absurd rfl h
  | succ n ih =>
    exact ⟨unifyWithin_detects_step hP hPB ih.1 ih.2, solveWithin_detects_step hPB hX ih.1 ih.2⟩

/-- **Unification is exact.** If it succeeds, the models that are left are those in which the types
mean the same, and only metavariables in play are solved; if it fails, there are no such models. -/
theorem unify_exact (hP : Ty.Stable P) (hPB : ∀ t, P t → t.Named B [])
    (hX : ∀ m, X m → m.scope = s) {a b : Ty} (hr : r.Valid P) (ha : a.Of P r) (hb : b.Of P r)
    (hai : a.Inside r X) (hbi : b.Inside r X) :
    (unify a b).Ensures r
      (fun _ r' => (r'.Valid P ∧ r.Extends r' ∧ Narrows r (fun θ => θ.read a = θ.read b) r') ∧
        r.Frames X r')
      fun stop _ => stop.inTime ∧ Refutes r fun θ => θ.read a = θ.read b := by
  have hdetects : (unify a b).Detects X r fun θ => θ.read a = θ.read b :=
    ensures_bind.2 (ensures_get.2 ((unifyWithin_detects hP hPB hX _).1 a b r hr ha hb hai hbi))
  refine (Ensures.and (unify_models hP hPB hr ha hb)
    (Ensures.and hdetects (unify_finishes hr.acyclic a b))).mono (fun _ _ h => ⟨h.1, h.2.1⟩) ?_
  rintro stop _ ⟨-, hrefutes, hstop⟩
  exact ⟨hstop, hrefutes hstop⟩

end

end RankN
