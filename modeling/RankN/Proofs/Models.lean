import RankN.Proofs.Inference
import RankN.Proofs.Nameless
import RankN.Proofs.Typing

/-!
# Models of a table

An `Assignment` gives every metavariable a closed type that mentions skolem constants of its scope
only. It is a *model* of a table if every solved metavariable gets what its solution means.

Tables can be compared by their models. Unification is exact in this sense (`unify_models`): the
models of the table it leaves are the models of the table it was given in which the two types mean
the same. So everything that holds in all models of the last table of an inference was enforced by
some step, and nothing was lost on the way.

Every valid table has models: the metavariables that are left may mean anything of their scope, and
the others then have their meaning through the table (`Assignment.through`).
-/

namespace RankN

open RankN.Action

/-! ## Assignments -/

/-- A meaning for every metavariable. -/
structure Assignment where
  type : MVar → Nameless
  closed : ∀ m, (type m).Closed
  inScope : ∀ m id, Atom.skolem id ∈ (type m).atoms → id ∈ m.scope

namespace Assignment

/-- What a type means under an assignment. -/
def read (θ : Assignment) (t : Ty) : Nameless := t.read θ.type []

/-- Every solved metavariable means what its solution means. -/
def Models (θ : Assignment) (tb : Table) : Prop :=
  ∀ m t, tb.solution? m = some t → θ.type m = θ.read t

variable {θ : Assignment} {r r' : Run}

theorem Models.of_extends (h : θ.Models r'.table) (he : r.Extends r') : θ.Models r.table :=
  fun m t ht => h m t (he.solution m t ht)

theorem closed_read (θ : Assignment) (t : Ty) : (θ.read t).Closed := Ty.closedAt_read θ.closed t []

end Assignment

/-- The constants of a meaning come from the type or from its metavariables. -/
theorem Ty.mem_atoms_read {θ : MVar → Nameless} {ctx : List String} {t : Ty} {id : Int}
    (h : Atom.skolem id ∈ (t.read θ ctx).atoms) :
    id ∈ t.skolems ∨ ∃ m ∈ t.mvars, Atom.skolem id ∈ (θ m).atoms := by
  induction t generalizing ctx with
  | var x => by_cases hx : x ∈ ctx <;> simp [hx] at h
  | all n x body ih => exact ih h
  | arrow n p q ihp ihq =>
    simp only [read, Nameless.atoms, List.mem_append] at h
    rcases h with h | h
    · exact (ihp h).imp (by simp +contextual) fun ⟨m, hm, hid⟩ => ⟨m, by simp [hm], hid⟩
    · exact (ihq h).imp (by simp +contextual) fun ⟨m, hm, hid⟩ => ⟨m, by simp [hm], hid⟩
  | app n f a ihf iha =>
    simp only [read, Nameless.atoms, List.mem_append] at h
    rcases h with h | h
    · exact (ihf h).imp (by simp +contextual) fun ⟨m, hm, hid⟩ => ⟨m, by simp [hm], hid⟩
    · exact (iha h).imp (by simp +contextual) fun ⟨m, hm, hid⟩ => ⟨m, by simp [hm], hid⟩
  | mvar m => exact .inr ⟨m, by simp, h⟩
  | skolem k => exact .inl (by simpa using h)
  | unknown n k => simp at h
  | absent => simp at h

/-! ## Meanings in a valid run -/

variable {P : Ty → Prop} {B : String → Prop} {r r' : Run} {θ : Assignment}

/-- A type of the run means only constants that the run has allocated. -/
theorem Ty.Over.allocated (hr : r.Valid P) {t : Ty} (ht : t.Over r) {ctx : List String} {id : Int}
    (h : Atom.skolem id ∈ (t.read θ.type ctx).atoms) : r.Allocated id := by
  rcases Ty.mem_atoms_read h with h | ⟨m, hm, h⟩
  · exact ht.2 id h
  · exact hr.scopes m (ht.1 m hm) id (θ.inScope m id h)

/-- The next constant does not occur in what is there. -/
theorem Ty.Over.fresh (hr : r.Valid P) {t : Ty} (ht : t.Over r) (ctx : List String) :
    Atom.skolem r.skolems ∉ (t.read θ.type ctx).atoms := by
  intro h
  have := (ht.allocated hr h).2
  omega

/-- **In a model, a type means what its expansion means.** -/
theorem Assignment.Models.read_expand (hm : θ.Models r.table) (hr : r.Valid P)
    (hP : ∀ t, P t → t.Named B []) {t : Ty} {ctx : List String} (hB : ∀ x ∈ ctx, B x)
    (ht : (r.table.expand t).Named B ctx) :
    (r.table.expand t).read θ.type ctx = t.read θ.type ctx := by
  have ha := hr.acyclic
  induction t using ha.induction generalizing ctx with
  | var | skolem | unknown | absent => rfl
  | all n x body ih =>
    have hB' : ∀ y ∈ x :: ctx, B y := List.forall_mem_cons.2 ⟨ht.1, hB⟩
    simp [ih hB' ht.2]
  | arrow n p q ihp ihq => simp [ihp hB ht.1, ihq hB ht.2]
  | app n f a ihf iha => simp [ihf hB ht.1, iha hB ht.2]
  | unsolved m hu => rw [Table.expand_unsolved hu]
  | solved m u hu ih =>
    have hn := hP _ (hr.solutions m u hu).mem
    calc (r.table.expand (.mvar m)).read θ.type ctx
        = (r.table.expand u).read θ.type [] := by rw [ha.expand_solved hu, hn.read_eq hB]
      _ = u.read θ.type [] := ih (by simp) hn
      _ = θ.type m := (hm m u hu).symm

/-- **Opening a quantifier instantiates it.** -/
theorem Assignment.Models.read_openAll (hm : θ.Models r.table) (hr : r.Valid P)
    (hr' : r'.Valid P) (hP : ∀ t, P t → t.Named B []) {n : Nat} {x : String} {body new t : Ty}
    {u : Nameless} (hall : (Ty.all n x body).Of P r) (hnew : ∀ ctx, new.read θ.type ctx = u)
    (ht : t.Of P r') (htable : r'.table = r.table)
    (hexp : r'.table.expand t = (r.table.expand body).replace x new) :
    θ.read t = (body.read θ.type [x]).instantiate 0 u := by
  have hm' : θ.Models r'.table := by rwa [htable]
  have hnamed : B x ∧ (r.table.expand body).Named B [x] := hP _ hall.mem
  have hB : ∀ y ∈ [x], B y := by simpa using hnamed.1
  calc θ.read t = (r'.table.expand t).read θ.type [] :=
        (hm'.read_expand hr' hP (by simp) (hP _ ht.mem)).symm
    _ = ((r.table.expand body).replace x new).read θ.type [] := by rw [hexp]
    _ = ((r.table.expand body).read θ.type [x]).instantiate 0 u :=
        Ty.read_replace θ.closed hnew (by simp) _
    _ = (body.read θ.type [x]).instantiate 0 u := by rw [hm.read_expand hr hP hB hnamed.2]

theorem Ty.Ground.read {t : Ty} (h : t.Ground) (θ : Assignment) : θ.read t = t.nameless :=
  Ty.read_congr fun m hm => (h.1 m hm).elim

/-! ## What names mean -/

section

variable {names : Names}

/-- The type of a name, bound names first. -/
def Names.lookup (names : Names) (x : String) : Option Ty :=
  (Layer.find? names.locals x).or (names.env.find? x)

/-- What is assumed of names under an assignment. -/
def Names.assume (θ : Assignment) (names : Names) : Assumptions :=
  fun x => (names.lookup x).map θ.read

theorem Names.lookup_of_find? {x : String} {t : Ty} (h : names.find? x = .ok (some t)) :
    names.lookup x = some t := by
  unfold Names.find? Locals.find? at h
  unfold Names.lookup
  cases hl : Layer.find? names.locals x with
  | none =>
    rw [hl] at h
    simpa [bind, Except.bind, pure, Except.pure] using h
  | some u =>
    rw [hl] at h
    cases u <;> simp [bind, Except.bind, pure, Except.pure] at h <;> simp [h]

/-- Where every name has a type, looking one up does not fail. -/
theorem Names.find?_eq (h : names.Every (· ≠ .absent)) (x : String) :
    names.find? x = .ok (names.lookup x) := by
  unfold Names.find? Locals.find? Names.lookup
  cases hl : Layer.find? names.locals x with
  | none => rfl
  | some t =>
    have hne := h.locals x t hl
    cases t with
    | absent => exact absurd rfl hne
    | _ => rfl

theorem Names.lookup_insert (names : Names) (x y : String) (t : Ty) :
    (names.insert x t).lookup y = if y = x then some t else names.lookup y := by
  unfold Names.lookup Names.insert
  simp only [Layer.find?_insert]
  split <;> rfl

theorem Names.assume_insert (θ : Assignment) (names : Names) (x : String) (t : Ty) :
    (names.insert x t).assume θ = Function.update (names.assume θ) x (some (θ.read t)) := by
  funext y
  by_cases hy : y = x
  · subst hy
    simp [Names.assume, Names.lookup_insert]
  · simp [Names.assume, Names.lookup_insert, hy]

/-- Of declared names with ground types their types are assumed. -/
theorem Names.assume_declared {env : Env} (h : env.Every Ty.Ground) (θ : Assignment) :
    Names.assume θ { env } = fun x => (env.find? x).map Ty.nameless := by
  funext x
  show (env.find? x).map θ.read = _
  cases hx : env.find? x with
  | none => rfl
  | some t => simp [(h x t hx).read]

theorem Names.Every.lookup {Q : Ty → Prop} (h : names.Every Q) {x : String} {t : Ty}
    (hx : names.lookup x = some t) : Q t := by
  rcases Option.or_eq_some_iff.1 hx with hl | ⟨-, he⟩
  · exact h.locals x t hl
  · exact h.env x t he

end

/-! ## Unification -/

/-- Bodies mean the same at a constant that neither mentions if and only if the quantified types
do. -/
theorem Opens.read_eq_iff {k k' : Nat} {x y : String} {t u t' u' : Ty}
    (ho : Opens P r x t y u t' u' r') (hm : θ.Models r.table) (hr : r.Valid P) (hr' : r'.Valid P)
    (hP : ∀ t, P t → t.Named B []) (ha : (Ty.all k x t).Of P r) (hb : (Ty.all k' y u).Of P r) :
    θ.read t' = θ.read u' ↔ θ.read (.all k x t) = θ.read (.all k' y u) := by
  have hread : θ.read t' = (t.read θ.type [x]).instantiate 0 (.const (.skolem r.skolems)) :=
    hm.read_openAll hr hr' hP ha (fun _ => rfl) ho.left ho.table ho.expand_left
  have hread' : θ.read u' = (u.read θ.type [y]).instantiate 0 (.const (.skolem r.skolems)) :=
    hm.read_openAll hr hr' hP hb (fun _ => rfl) ho.right ho.table ho.expand_right
  have hfresh : Atom.skolem r.skolems ∉ (t.read θ.type [x]).atoms :=
    Ty.Over.fresh hr (show t.Over r from ha.isOver) [x]
  have hfresh' : Atom.skolem r.skolems ∉ (u.read θ.type [y]).atoms :=
    Ty.Over.fresh hr (show u.Over r from hb.isOver) [y]
  rw [hread, hread']
  simp only [Assignment.read, Ty.read, Nameless.all.injEq]
  exact ⟨Nameless.instantiate_const_inj hfresh hfresh', fun h => by rw [h]⟩

theorem Assignment.models_write {tb : Table} {m : MVar} {t : Ty} (ho : tb.owns m)
    (hu : tb.solution? m = none) :
    θ.Models (tb.write m t) ↔ θ.Models tb ∧ θ.type m = θ.read t := by
  constructor
  · intro h
    refine ⟨fun k u hk => h k u ?_, h m t (Table.solution?_write_self ho t)⟩
    have hkm : k ≠ m := by
      rintro rfl
      rw [hu] at hk
      cases hk
    rw [Table.solution?_write_of_ne tb hkm, hk]
  · rintro ⟨h, hm⟩ k u hk
    by_cases hkm : k = m
    · subst hkm
      rw [Table.solution?_write_self ho] at hk
      cases hk
      exact hm
    · rw [Table.solution?_write_of_ne tb hkm] at hk
      exact h k u hk

/-- The models that an action leaves are those in which `C` holds. -/
def Narrows (r : Run) (C : Assignment → Prop) (r' : Run) : Prop :=
  ∀ θ : Assignment, θ.Models r'.table ↔ θ.Models r.table ∧ C θ

theorem narrows_of_table_eq {C : Assignment → Prop} (h : r'.table = r.table)
    (hC : ∀ θ : Assignment, θ.Models r.table → C θ) : Narrows r C r' := by
  intro θ
  rw [h]
  exact ⟨fun hm => ⟨hm, hC θ hm⟩, fun hm => hm.1⟩

theorem Narrows.trans {r₁ r₂ : Run} {C D : Assignment → Prop} (h : Narrows r C r₁)
    (h' : Narrows r₁ D r₂) : Narrows r (fun θ => C θ ∧ D θ) r₂ := by
  intro θ
  rw [h' θ, h θ, and_assoc]

/-- What is known in the models that are left may be used to say how they were narrowed. -/
theorem Narrows.congr {C D : Assignment → Prop} (h : Narrows r C r')
    (hCD : ∀ θ : Assignment, θ.Models r.table → (C θ ↔ D θ)) : Narrows r D r' := by
  intro θ
  rw [h θ]
  exact and_congr_right fun hm => hCD θ hm

theorem Narrows.of_table_eq {r₁ : Run} {C : Assignment → Prop} (h : Narrows r₁ C r')
    (ht : r₁.table = r.table) : Narrows r C r' := by
  intro θ
  rw [h θ, ht]

/-- **Unification and solving narrow the models to those in which the types mean the same.** -/
theorem unifyWithin_models (hP : Ty.Stable P) (hPB : ∀ t, P t → t.Named B []) (n : Nat) :
    (∀ (a b : Ty) (r : Run), r.Valid P → a.Of P r → b.Of P r →
      (unifyWithin n a b).Keeps P r fun _ r' => Narrows r (fun θ => θ.read a = θ.read b) r') ∧
    ∀ (m : MVar) (t : Ty) (r : Run), r.Valid P → r.table.owns m → t.Of P r →
      (solveWithin n m t).Keeps P r fun _ r' => Narrows r (fun θ => θ.type m = θ.read t) r' := by
  induction n with
  | zero =>
    refine ⟨fun a b r hr _ _ => ?_, fun m t r hr _ _ => ?_⟩
    · rw [unifyWithin]
      exact keeps_throw hr
    · rw [solveWithin]
      exact keeps_throw hr
  | succ n ih =>
    have both : ∀ {p p' q q' : Ty} {r : Run}, r.Valid P → p.Of P r → p'.Of P r → q.Of P r →
        q'.Of P r → (do unifyWithin n p p'; unifyWithin n q q' : Solve Unit).Keeps P r
          fun _ r' => Narrows r (fun θ => θ.read p = θ.read p' ∧ θ.read q = θ.read q') r' := by
      intro p p' q q' r hr hp hp' hq hq'
      refine (ih.1 p p' r hr hp hp').bind fun _ r₁ hr₁ he₁ h₁ => ?_
      exact (ih.1 q q' r₁ hr₁ (hq.mono hP hr hr₁ he₁) (hq'.mono hP hr hr₁ he₁)).mono
        fun _ r₂ _ _ h₂ => h₁.trans h₂
    -- A step first records itself, which leaves the table alone.
    have step : ∀ {ev : Event} {x : Solve Unit} {r : Run} {C D : Assignment → Prop},
        x.Keeps P (Run.log ev r).2 (fun _ r' => Narrows (Run.log ev r).2 C r') →
        (∀ θ : Assignment, θ.Models r.table → (C θ ↔ D θ)) →
        x.Ensures (Run.log ev r).2 (fun _ r' => r'.Valid P ∧ r.Extends r' ∧ Narrows r D r')
          fun _ r' => r'.Valid P := by
      intro ev x r C D h hCD
      refine (h.mono fun _ r' _ _ h => ?_).after (r.agrees_log ev).extends_
      exact (h.of_table_eq (r.table_log ev)).congr hCD
    refine ⟨fun a b r hr ha hb => ?_, fun m t r hr ho ht => ?_⟩
    · have hlog := r.agrees_log (.unify a b)
      have hr₁ := hlog.valid hr
      have ha₁ := hlog.of ha
      have hb₁ := hlog.of hb
      refine ensures_unifyWithin ?_ ?_ ?_ ?_ ?_ ?_
        (fun _ _ => (mismatch_keeps hr₁ a b _).after hlog.extends_)
      · rintro rfl
        exact ⟨hr₁, hlog.extends_, narrows_of_table_eq (r.table_log _) fun _ _ => rfl⟩
      · rintro k p q k' p' q' rfl rfl
        rw [Ty.of_arrow hP] at ha₁ hb₁
        exact step (both hr₁ ha₁.1 hb₁.1 ha₁.2 hb₁.2) fun θ _ => by simp [Assignment.read]
      · rintro k f x k' f' x' rfl rfl
        obtain ⟨hf, hx⟩ := ha₁.app hP
        obtain ⟨hf', hx'⟩ := hb₁.app hP
        exact step (both hr₁ hf hf' hx hx') fun θ _ => by simp [Assignment.read]
      · rintro k x t k' y u rfl rfl
        refine step (C := fun θ => θ.read (.all k x t) = θ.read (.all k' y u)) ?_ fun _ _ => Iff.rfl
        refine ensures_opens hP hr₁ ha₁ hb₁ fun t' u' r₂ hr₂ he₂ ho => ?_
        refine ((ih.1 t' u' r₂ hr₂ ho.left ho.right).mono fun _ r₃ _ _ h => ?_).after he₂
        exact (h.of_table_eq ho.table).congr fun θ hm => ho.read_eq_iff hm hr₁ hr₂ hPB ha₁ hb₁
      · rintro m rfl
        exact step (ih.2 m b _ hr₁ ha₁.owns hb₁) fun θ _ => Iff.rfl
      · rintro m rfl
        exact step (ih.2 m a _ hr₁ hb₁.owns ha₁) fun θ _ => eq_comm
    · have hlog := r.agrees_log (.solve m t)
      have hr₁ := hlog.valid hr
      have ht₁ := hlog.of ht
      have ho₁ := hlog.extends_.owns m ho
      refine ensures_solveWithin ?_ ?_ ?_ ?_
      · rintro rfl
        exact ⟨hr₁, hlog.extends_, narrows_of_table_eq (r.table_log _) fun _ _ => rfl⟩
      · intro u hu
        refine step (ih.1 u t _ hr₁ (hlog.of (hr.solutions m u hu)) ht₁) fun θ hm => ?_
        rw [hm m u hu]
      · rintro m' u - rfl hu
        refine step (ih.2 m u _ hr₁ ho₁ (hlog.of (hr.solutions m' u hu))) fun θ hm => ?_
        rw [show θ.read (.mvar m') = θ.read u from hm m' u hu]
      · intro hm _ _
        rw [← hlog.table] at hm
        refine step ((settle_keeps hP hr₁ ho₁ hm ht₁).mono fun _ r' _ _ h => ?_) fun θ _ => Iff.rfl
        subst h
        exact fun θ => Assignment.models_write ho₁ hm

theorem unify_models (hP : Ty.Stable P) (hPB : ∀ t, P t → t.Named B []) {a b : Ty}
    (hr : r.Valid P) (ha : a.Of P r) (hb : b.Of P r) :
    (unify a b).Keeps P r fun _ r' => Narrows r (fun θ => θ.read a = θ.read b) r' :=
  keeps_get_bind ((unifyWithin_models hP hPB _).1 a b r hr ha hb)

/-! ## Models of valid tables -/

namespace Assignment

/-- Metavariables as constants. -/
def constant : Assignment where
  type m := .const (.mvar m)
  closed _ := trivial
  inScope m id h := by simp at h

/-- The assignment that agrees with `σ` on unsolved metavariables and gives the others their meaning
through the table. -/
def through (σ : Assignment) (hr : r.Valid P) : Assignment where
  type m := σ.read (r.table.expand (.mvar m))
  closed m := σ.closed_read _
  inScope m id h := by
    have hfits := hr.fits_mvar m
    rcases Ty.mem_atoms_read h with h | ⟨k, hk, h⟩
    · exact hfits.2 id h
    · rw [← hfits.1 k hk]
      exact σ.inScope k id h

variable {σ : Assignment}

theorem through_unsolved (hr : r.Valid P) {m : MVar} (hm : r.table.solution? m = none) :
    (σ.through hr).type m = σ.type m := by
  show σ.read (r.table.expand (.mvar m)) = σ.type m
  rw [Table.expand_unsolved hm]
  rfl

/-- A type means through the table what its expansion means. -/
theorem read_through (hr : r.Valid P) (hP : ∀ t, P t → t.Named B []) {t : Ty}
    (ht : (r.table.expand t).Named B []) :
    (σ.through hr).read t = σ.read (r.table.expand t) := by
  have hf : ∀ m, (r.table.expand (.mvar m)).Named B [] := by
    intro m
    cases hs : r.table.solution? m with
    | none =>
      rw [Table.expand_unsolved hs]
      trivial
    | some u =>
      rw [hr.acyclic.expand_solved hs]
      exact hP _ (hr.solutions m u hs).mem
  rw [r.table.expand_eq_fill] at ht ⊢
  refine Eq.trans ?_ (ht.read_fill (by simp) fun m _ => hf m).symm
  exact (Ty.read_plain _ [] t).symm

/-- **Every valid table has a model** for any meaning of its unsolved metavariables. -/
theorem models_through (hr : r.Valid P) (hP : ∀ t, P t → t.Named B []) :
    (σ.through hr).Models r.table := by
  intro m t hm
  rw [read_through hr hP (hP _ (hr.solutions m t hm).mem)]
  show σ.read (r.table.expand (.mvar m)) = _
  rw [hr.acyclic.expand_solved hm]

end Assignment

end RankN
