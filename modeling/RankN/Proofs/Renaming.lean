import RankN.Proofs.Escape
import RankN.Proofs.Following
import RankN.Proofs.Totality
import RankN.Proofs.Twins
import RankN.Proofs.Unification

/-!
# Inference and the names of bound variables

`t.Renames V t'` says that two types differ only in the names of their bound variables, and in
stamps. Free names stand for each other as `V` says; they are kept if `V` is equality. Metavariables
are compared by their ids. A type of an unknown kind is a renaming of itself only.

**Capture.** Opening a quantifier replaces a name, and enters the solutions of metavariables under
the quantifier. A name that is free in such a solution is a constant, but it is replaced too if it
is the name that the quantifier binds. So inference does tell alpha-equivalent types apart
(`infer_of_captured_name`).

**Main result** (`infer_renames`): it does not if no name is both bound and free in what it is
given. Then an inference succeeds if and only if it does after bound names have been renamed, and
the two answers are renamings of each other.
-/

namespace RankN

open RankN.Action
open Pairing (Binding)

/-! ## Renamed types -/

/-- The types differ in stamps and in the names that quantifiers bind. Free names stand for each
other as `V` says. -/
inductive Ty.Renames : (String → String → Prop) → Ty → Ty → Prop
  | var {V : String → String → Prop} {x y : String} : V x y → Renames V (.var x) (.var y)
  | all {V : String → String → Prop} {n n' : Nat} {x y : String} {t t' : Ty} :
    Renames (Binding V x y) t t' → Renames V (.all n x t) (.all n' y t')
  | arrow {V : String → String → Prop} {n n' : Nat} {p q p' q' : Ty} : Renames V p p' →
    Renames V q q' → Renames V (.arrow n p q) (.arrow n' p' q')
  | app {V : String → String → Prop} {n n' : Nat} {f a f' a' : Ty} : Renames V f f' →
    Renames V a a' → Renames V (.app n f a) (.app n' f' a')
  | mvar {V : String → String → Prop} {m m' : MVar} : m.id = m'.id → Renames V (.mvar m) (.mvar m')
  | skolem {V : String → String → Prop} (c : Int) : Renames V (.skolem c) (.skolem c)
  | unknown {V : String → String → Prop} (n : Nat) (k : String) :
    Renames V (.unknown n k) (.unknown n k)
  | absent {V : String → String → Prop} : Renames V .absent .absent

/-- The meaning of a metavariable that is known by its id. -/
abbrev Ty.byId (m : MVar) : Nameless := .const (.mvar ⟨0, m.id, .empty⟩)

/-- The names mean the same where those of `ctx` are bound around one and those of `ctx'` around the
other. -/
def SameName (ctx ctx' : List String) (a b : String) : Prop :=
  (Ty.var a).read Ty.byId ctx = (Ty.var b).read Ty.byId ctx'

theorem sameName_nil : SameName [] [] = Eq := by
  funext a b
  simp [SameName]

theorem sameName_cons (ctx ctx' : List String) (x y : String) :
    SameName (x :: ctx) (y :: ctx') = Binding (SameName ctx ctx') x y := by
  funext a b
  have hbound : ∀ (ctx : List String) (x a : String), a ≠ x →
      (Ty.var a).read Ty.byId (x :: ctx) =
        if a ∈ ctx then .bound (ctx.idxOf a + 1) else .const (.name a) := by
    intro ctx x a hax
    simp [hax, List.idxOf_cons_ne ctx (Ne.symm hax)]
  by_cases hax : a = x
  · by_cases hby : b = y
    · simp [SameName, Binding, hax, hby]
    · simp only [SameName, Binding, hbound ctx' y b hby]
      by_cases hb : b ∈ ctx' <;> simp [hax, hby, hb]
  · by_cases hby : b = y
    · simp only [SameName, Binding, hbound ctx x a hax]
      by_cases ha : a ∈ ctx <;> simp [hax, hby, ha]
    · simp only [SameName, Binding, hbound ctx x a hax, hbound ctx' y b hby]
      by_cases ha : a ∈ ctx <;> by_cases hb : b ∈ ctx' <;> simp [hax, hby, ha, hb]

namespace Ty

variable {V : String → String → Prop} {t t' : Ty} {ctx ctx' : List String}

/-- Types that are renamings of each other read the same. -/
theorem Renames.read_eq (h : t.Renames V t') (hV : V = SameName ctx ctx') :
    t.read byId ctx = t'.read byId ctx' := by
  induction h generalizing ctx ctx' with
  | var hxy =>
    subst hV
    exact hxy
  | @all V n n' x y t t' _ ih =>
    have hbody : t.read byId (x :: ctx) = t'.read byId (y :: ctx') :=
      ih (by rw [hV, sameName_cons])
    simp [hbody]
  | arrow _ _ ihp ihq => simp [ihp hV, ihq hV]
  | app _ _ ihf iha => simp [ihf hV, iha hV]
  | mvar hid => simp [hid]
  | skolem c => rfl
  | unknown n k => rfl
  | absent => rfl

/-- Types that read the same are renamings of each other. -/
theorem renames_of_read (h : t.read byId ctx = t'.read byId ctx') :
    t.Renames (SameName ctx ctx') t' := by
  induction t generalizing t' ctx ctx' with
  | var x =>
    cases t' with
    | var y => exact .var h
    | _ => simp [ite_eq_iff] at h
  | all n x body ih =>
    cases t' with
    | all n' y body' =>
      have hbody : body.Renames (SameName (x :: ctx) (y :: ctx')) body' :=
        ih (by simpa using h)
      rw [sameName_cons] at hbody
      exact .all hbody
    | _ => simp [eq_ite_iff] at h
  | arrow n p q ihp ihq =>
    cases t' with
    | arrow n' p' q' =>
      simp only [read, Nameless.arrow.injEq] at h
      exact .arrow (ihp h.1) (ihq h.2)
    | _ => simp [eq_ite_iff] at h
  | app n f a ihf iha =>
    cases t' with
    | app n' f' a' =>
      simp only [read, Nameless.app.injEq] at h
      exact .app (ihf h.1) (iha h.2)
    | _ => simp [eq_ite_iff] at h
  | mvar m =>
    cases t' with
    | mvar m' => exact .mvar (by simpa using h)
    | _ => simp [eq_ite_iff] at h
  | skolem c =>
    cases t' with
    | skolem c' =>
      have hc : c = c' := by simpa using h
      exact hc ▸ .skolem c
    | _ => simp [eq_ite_iff] at h
  | unknown n k =>
    cases t' with
    | unknown n' k' =>
      obtain ⟨hn, hk⟩ : n = n' ∧ k = k' := by simpa using h
      rw [hn, hk]
      exact .unknown n' k'
    | _ => simp [eq_ite_iff] at h
  | absent =>
    cases t' with
    | absent => exact .absent
    | _ => simp [eq_ite_iff] at h

/-- Alpha-equivalence is equality of readings. -/
theorem renames_iff_read : t.Renames Eq t' ↔ t.read byId [] = t'.read byId [] := by
  rw [← sameName_nil]
  exact ⟨fun h => h.read_eq rfl, renames_of_read⟩

instance (t t' : Ty) : Decidable (t.Renames Eq t') := decidable_of_iff _ renames_iff_read.symm

theorem Renames.symm (h : t.Renames Eq t') : t'.Renames Eq t :=
  renames_iff_read.2 (renames_iff_read.1 h).symm

theorem Renames.ground (h : t.Renames V t') (ht : t.Ground) : t'.Ground := by
  unfold Ground at *
  induction h with
  | var | unknown | absent => simp
  | all _ ih => exact ih ht
  | arrow _ _ ihp ihq =>
    rw [leaves_arrow] at *
    exact ⟨ihp ht.1, ihq ht.2⟩
  | app _ _ ihf iha =>
    rw [leaves_app] at *
    exact ⟨ihf ht.1, iha ht.2⟩
  | mvar => simp at ht
  | skolem => exact ht

/-- Free names are kept. -/
theorem Renames.freeNames (h : t.Renames V t') {b : String} (hb : b ∈ t'.freeNames) :
    ∃ a ∈ t.freeNames, V a b := by
  induction h generalizing b with
  | @var V x y hxy =>
    have hby : b = y := by simpa [Ty.freeNames] using hb
    exact ⟨x, by simp [Ty.freeNames], hby ▸ hxy⟩
  | @all V n n' x y t t' _ ih =>
    obtain ⟨hb, hby⟩ : b ∈ t'.freeNames ∧ b ≠ y := by simpa [Ty.freeNames] using hb
    obtain ⟨a, ha, ⟨-, rfl⟩ | ⟨hax, -, hab⟩⟩ := ih hb
    · exact absurd rfl hby
    · exact ⟨a, by simp [Ty.freeNames, ha, hax], hab⟩
  | arrow _ _ ihp ihq =>
    rcases List.mem_append.1 hb with hb | hb
    · obtain ⟨a, ha, hab⟩ := ihp hb
      exact ⟨a, List.mem_append_left _ ha, hab⟩
    · obtain ⟨a, ha, hab⟩ := ihq hb
      exact ⟨a, List.mem_append_right _ ha, hab⟩
  | app _ _ ihf iha =>
    rcases List.mem_append.1 hb with hb | hb
    · obtain ⟨a, ha, hab⟩ := ihf hb
      exact ⟨a, List.mem_append_left _ ha, hab⟩
    · obtain ⟨a, ha, hab⟩ := iha hb
      exact ⟨a, List.mem_append_right _ ha, hab⟩
  | _ => simp [Ty.freeNames] at hb

end Ty

/-! ## Renamed inputs -/

/-- The second environment is the first one with other types, related by `R`. -/
def Env.Retyped (R : Ty → Ty → Prop) (env env' : Env) : Prop :=
  List.Forall₂ (List.Forall₂ fun d d' : String × Ty => d.1 = d'.1 ∧ R d.2 d'.2) env env'

section

variable {R R' : Ty → Ty → Prop} {env env' : Env} {e e' : Expr}

theorem Layer.find?_retyped {l l' : Layer}
    (h : List.Forall₂ (fun d d' : String × Ty => d.1 = d'.1 ∧ R d.2 d'.2) l l') (x : String) :
    Option.Rel R (Layer.find? l x) (Layer.find? l' x) := by
  unfold Layer.find?
  induction h with
  | nil => exact .none
  | @cons d d' l l' hd _ ih =>
    obtain ⟨y, t⟩ := d
    obtain ⟨y', t'⟩ := d'
    obtain ⟨rfl, ht⟩ : y = y' ∧ R t t' := hd
    by_cases hxy : x = y
    · simpa [List.lookup_cons, hxy] using Option.Rel.some ht
    · have hbeq : (x == y) = false := beq_eq_false_iff_ne.2 hxy
      simpa [List.lookup_cons, hbeq] using ih

theorem Env.Retyped.find? (h : env.Retyped R env') (x : String) :
    Option.Rel R (env.find? x) (env'.find? x) := by
  unfold Env.find?
  induction h with
  | nil => exact .none
  | @cons l l' env env' hl _ ih =>
    have hrel := Layer.find?_retyped hl x
    cases hl : Layer.find? l x with
    | none =>
      cases hl' : Layer.find? l' x with
      | none => simpa [List.findSome?_cons, hl, hl'] using ih
      | some t' => rw [hl, hl'] at hrel; cases hrel
    | some t =>
      cases hl' : Layer.find? l' x with
      | none => rw [hl, hl'] at hrel; cases hrel
      | some t' => simpa [List.findSome?_cons, hl, hl'] using hrel

theorem Env.Retyped.exists_of_find? (h : env.Retyped R env') {x : String} {t : Ty}
    (hx : env.find? x = some t) : ∃ t', env'.find? x = some t' ∧ R t t' := by
  have hrel := h.find? x
  rw [hx] at hrel
  cases hx' : env'.find? x with
  | none => rw [hx'] at hrel; cases hrel
  | some t' =>
    rw [hx'] at hrel
    cases hrel with
    | some hR => exact ⟨t', rfl, hR⟩

theorem Env.Retyped.symm (h : env.Retyped R env') (hR : ∀ t t', R t t' → R' t' t) :
    env'.Retyped R' env :=
  h.flip.imp fun _ _ hl => hl.flip.imp fun _ _ hd => ⟨hd.1.symm, hR _ _ hd.2⟩

theorem Expr.Retyped.symm (h : e.Retyped R e') (hR : ∀ t t', R t t' → R' t' t) :
    e'.Retyped R' e := by
  induction h with
  | var x => exact .var x
  | fn x _ ih => exact .fn x ih
  | app _ _ ihf iha => exact .app ihf iha
  | ann _ ht ih => exact .ann ih (hR _ _ ht)
  | unknown k => exact .unknown k
  | absent => exact .absent

theorem Expr.Retyped.imp (h : e.Retyped R e')
    (hR : ∀ t ∈ e.annotations, ∀ t' ∈ e'.annotations, R t t' → R' t t') : e.Retyped R' e' := by
  induction h with
  | var x => exact .var x
  | fn x _ ih => exact .fn x (ih hR)
  | app _ _ ihf iha =>
    simp only [Expr.annotations, List.mem_append] at hR
    exact .app (ihf fun t ht t' ht' => hR t (.inl ht) t' (.inl ht'))
      (iha fun t ht t' ht' => hR t (.inr ht) t' (.inr ht'))
  | ann _ ht ih =>
    simp only [Expr.annotations, List.mem_cons] at hR
    exact .ann (ih fun t ht t' ht' => hR t (.inr ht) t' (.inr ht'))
      (hR _ (.inl rfl) _ (.inl rfl) ht)
  | unknown k => exact .unknown k
  | absent => exact .absent

theorem Expr.Retyped.exists_of_mem (h : e.Retyped R e') {t : Ty} (ht : t ∈ e.annotations) :
    ∃ t' ∈ e'.annotations, R t t' := by
  induction h with
  | fn x _ ih => exact ih ht
  | app _ _ ihf iha =>
    rcases List.mem_append.1 ht with ht | ht
    · obtain ⟨t', ht', hR⟩ := ihf ht
      exact ⟨t', List.mem_append_left _ ht', hR⟩
    · obtain ⟨t', ht', hR⟩ := iha ht
      exact ⟨t', List.mem_append_right _ ht', hR⟩
  | ann _ hR ih =>
    rcases List.mem_cons.1 ht with rfl | ht
    · exact ⟨_, List.mem_cons_self, hR⟩
    · obtain ⟨t', ht', hR⟩ := ih ht
      exact ⟨t', List.mem_cons_of_mem _ ht', hR⟩
  | _ => simp [Expr.annotations] at ht

end

/-- The second of two inputs of inference is a renaming of the first, and in neither a name is both
bound and free. -/
structure Renaming (env env' : Env) (e e' : Expr) : Prop where
  declared : env.Retyped (Ty.Renames Eq) env'
  annotated : e.Retyped (Ty.Renames Eq) e'
  ground : ∀ t, Mentions env e t → t.Ground
  left : ∀ t u, Mentions env e t → Mentions env e u → ∀ x ∈ t.binders, x ∉ u.freeNames
  right : ∀ t u, Mentions env' e' t → Mentions env' e' u → ∀ x ∈ t.binders, x ∉ u.freeNames

namespace Renaming

variable {env env' : Env} {e e' : Expr} {t t' : Ty}

/-- What is mentioned has a renaming in the other input. -/
theorem exists_of_mentions (henv : env.Retyped (Ty.Renames Eq) env')
    (he : e.Retyped (Ty.Renames Eq) e') (ht : Mentions env e t) :
    ∃ t', Mentions env' e' t' ∧ t.Renames Eq t' := by
  rcases ht with ⟨x, hx⟩ | ht
  · obtain ⟨t', hx', h⟩ := henv.exists_of_find? hx
    exact ⟨t', .inl ⟨x, hx'⟩, h⟩
  · obtain ⟨t', ht', h⟩ := he.exists_of_mem ht
    exact ⟨t', .inr ht', h⟩

theorem symm (h : Renaming env env' e e') : Renaming env' env e' e := by
  have henv : env'.Retyped (Ty.Renames Eq) env := h.declared.symm fun _ _ h => h.symm
  have hexpr : e'.Retyped (Ty.Renames Eq) e := h.annotated.symm fun _ _ h => h.symm
  refine ⟨henv, hexpr, fun t' ht' => ?_, h.right, h.left⟩
  obtain ⟨t, ht, hren⟩ := exists_of_mentions henv hexpr ht'
  exact hren.symm.ground (h.ground t ht)

/-- The names that are bound in one of the inputs. -/
def Bound (env env' : Env) (e e' : Expr) (x : String) : Prop :=
  ∃ t, (Mentions env e t ∨ Mentions env' e' t) ∧ x ∈ t.binders

theorem bound_symm : Bound env' env e' e = Bound env env' e e' := by
  funext x
  simp only [Bound, or_comm]

/-- No free name of the first input can be captured in either. -/
theorem named (h : Renaming env env' e e') (ht : Mentions env e t) :
    t.plain.Named (Bound env env' e e') [] := by
  obtain ⟨t', ht', hren⟩ := exists_of_mentions h.declared h.annotated ht
  refine Ty.named_plain (fun x hx => ⟨t, .inl ht, hx⟩) fun x hx => .inr ?_
  intro ⟨u, hu, hxu⟩
  rcases hu with hu | hu
  · exact h.left u t hu ht x hxu hx
  · obtain ⟨_, hx', rfl⟩ := hren.symm.freeNames hx
    exact h.right u t' hu ht' _ hxu hx'

end Renaming

/-! ## Types without skolem constants -/

/-- Without skolem constants, labels do not matter. -/
theorem Ty.bind_label {t : Ty} (h : t.skolems = []) (κ : Int → Int) :
    t.nameless.bind (fun c => .const (c.label κ)) = t.read byId [] := by
  have hread : t.read byId [] = t.nameless.bind (meant byId) := read_eq_bind byId t []
  rw [hread]
  refine Nameless.bind_congr fun c hc => ?_
  cases c with
  | skolem c =>
    have hmem : c ∈ t.skolems := skolem_mem_atoms.1 hc
    simp [h] at hmem
  | _ => rfl

theorem Labelled.form_eq_read {B : String → Prop} (ℓ : Labelled B) {t : Ty}
    (h : (ℓ.run.table.expand t).skolems = []) :
    ℓ.form t = (ℓ.run.table.expand t).read Ty.byId [] := Ty.bind_label h ℓ.label

theorem Ty.Ground.resolved {t : Ty} (h : t.Ground) (tb : Table) : t.Resolved tb := by
  unfold Ground at h
  induction t with
  | mvar m => simp at h
  | arrow n p q ihp ihq =>
    rw [leaves_arrow] at h
    exact ⟨ihp h.1, ihq h.2⟩
  | app n f a ihf iha =>
    rw [leaves_app] at h
    exact ⟨ihf h.1, iha h.2⟩
  | _ => trivial

/-- The form of a ground type is the same in all runs. -/
theorem Ty.Ground.form {B : String → Prop} {t : Ty} (h : t.Ground) (ℓ : Labelled B) :
    ℓ.form t = t.read byId [] := by
  have hexp : ℓ.run.table.expand t = t.plain :=
    Table.expand_of_unsolved fun m hm => (h.1 m hm).elim
  have hplain : t.plain.skolems = [] :=
    List.eq_nil_iff_forall_not_mem.2 fun c hc => (leaves_plain.2 h).2 c hc
  rw [ℓ.form_eq_read (hexp ▸ hplain), hexp, read_plain]

/-! ## Renamed inferences -/

/-- A run that has allocated nothing needs no labels. -/
def Run.Empty.labelled {r : Run} (h : r.Empty) (B : String → Prop) : Labelled B where
  run := r
  label := id
  next := 0
  valid := h.valid
  injective _ _ _ _ h := h
  below c hc := by
    unfold Run.Allocated at hc
    rw [h.skolems] at hc
    omega

/-- Runs that have allocated nothing mirror each other. -/
def Run.Empty.mirror {r s : Run} (hr : r.Empty) (hs : s.Empty) (B : String → Prop) : Mirror B where
  left := hr.labelled B
  right := hs.labelled B
  next := rfl
  mvars := hs.mvars.trans hr.mvars.symm
  scopes m m' ho := by
    have hempty : r.table.owns m := ho
    simp [hr.table] at hempty
  solutions m m' ho := by
    have hempty : r.table.owns m := ho
    simp [hr.table] at hempty

theorem Mirror.scopes_empty {B : String → Prop} (w : Mirror B) : w.Scopes .empty .empty where
  left _ hc := absurd hc Scope.not_mem_empty
  right _ hc := absurd hc Scope.not_mem_empty
  like l := by simp [Scope.not_mem_empty]

namespace Context

variable {c : Context} {e : Expr} {env : Env}

theorem given_of_infer {T : Ty} (h : (c.infer e env).1 = .ok T) : e ≠ .absent ∧ env ≠ [] := by
  constructor
  · intro he
    simp [infer, he] at h
  · intro henv
    by_cases he : e = .absent <;> simp [infer, he, henv] at h

theorem Ready.not_cyclic (hc : c.Ready) {r : Run} :
    synth { env } .empty e (c.start e env) ≠ .error (.fault .cyclic) r := by
  intro h
  have hin : c.used = true ∨ c.run.InOrder :=
    hc.imp_right fun h => Run.Valid.inOrder (P := Ty.Any) h.valid
  exact (synth_evolves hin e env).finishes.of_error h rfl

/-- What is synthesized from ground types mentions no skolem constant. -/
theorem Ready.skolems_of_synth (hc : c.Ready) (hground : ∀ t, Mentions env e t → t.Ground)
    {t : Ty} {r : Run} (h : synth { env } .empty e (c.start e env) = .ok t r) :
    (r.table.expand t).skolems = [] := by
  have henv : env.Every Ty.Ground := fun x t hx => hground t (.inl ⟨x, hx⟩)
  have he : e.Every Ty.Ground := fun t ht => hground t (.inr ht)
  have hscoped : Scoped Ty.Any (c.start e env) { env } .empty e :=
    ⟨given_of_ground (fun x t hx => ⟨henv x t hx, trivial⟩) (fun t ht => ⟨he t ht, trivial⟩) _,
      ⟨fun x t hx => by simp [Layer.find?] at hx, fun x t hx => (henv x t hx).inScope _ _⟩,
      fun t ht => (he t ht).inScope _ _⟩
  obtain ⟨-, -, hin⟩ :=
    (synth_inScope Ty.stable_any (hc.empty_start e env).valid hscoped).of_ok h
  exact List.eq_nil_iff_forall_not_mem.2 fun id hid => Scope.not_mem_empty (hin.2 id hid)

end Context

/-- If one of two types of the same form has no skolem constants, neither has the other. -/
theorem Labelled.skolems_of_form {B : String → Prop} {ℓ ℓ' : Labelled B} {t t' : Ty}
    (h : ℓ.form t = ℓ'.form t') (ht : (ℓ.run.table.expand t).skolems = []) :
    (ℓ'.run.table.expand t').skolems = [] := by
  refine List.eq_nil_iff_forall_not_mem.2 fun c hc => ?_
  have hmem : Atom.skolem (ℓ'.label c) ∈ (ℓ.form t).atoms :=
    h ▸ ℓ'.skolem_mem_form.2 ⟨c, hc, rfl⟩
  obtain ⟨d, hd, -⟩ := ℓ.skolem_mem_form.1 hmem
  simp [ht] at hd

/-- Types that are alike and have no skolem constants are renamings of each other once pruned. -/
theorem Mirror.Like.renames {B : String → Prop} {w : Mirror B} {t t' : Ty} (h : w.Like t t')
    (ht : (w.left.run.table.expand t).skolems = []) :
    (prune t w.left.run).1.Renames Eq (prune t' w.right.run).1 := by
  have ht' := Labelled.skolems_of_form h.form ht
  refine Ty.renames_iff_read.2 ?_
  calc (prune t w.left.run).1.read Ty.byId []
      = w.left.form t := by rw [Ty.read_prune w.left.valid.acyclic, w.left.form_eq_read ht]
    _ = w.right.form t' := h.form
    _ = (prune t' w.right.run).1.read Ty.byId [] := by
      rw [Ty.read_prune w.right.valid.acyclic, w.right.form_eq_read ht']

namespace Renaming

variable {env env' : Env} {e e' : Expr} {t t' : Ty} {c c' : Context}

/-- Types that are renamings of each other are alike in all runs. -/
theorem alwaysLike (h : Renaming env env' e e') (ht : Mentions env e t)
    (ht' : Mentions env' e' t') (hren : t.Renames Eq t') :
    Mirror.AlwaysLike (Bound env env' e e') t t' := by
  intro w
  have hground := h.ground t ht
  have hground' := h.symm.ground t' ht'
  have hleft := hground.of (h.named ht) w.left.run
  have hright := hground'.of (bound_symm ▸ h.symm.named ht') w.right.run
  refine ⟨hleft, hright, Labelled.alike hleft hright (hground.resolved _) (hground'.resolved _) ?_⟩
  rw [hground.form, hground'.form]
  exact Ty.renames_iff_read.1 hren

theorem namesLike (h : Renaming env env' e e') (w : Mirror (Bound env env' e e')) :
    w.NamesLike { env } { env := env' } := by
  have hfind : ∀ (env : Env) x, Names.find? { env } x = .ok (env.find? x) := fun _ _ => rfl
  intro x t hx
  rw [hfind, Except.ok.injEq] at hx
  obtain ⟨t', hx', hren⟩ := h.declared.exists_of_find? hx
  exact ⟨t', by rw [hfind, hx'], h.alwaysLike (.inl ⟨x, hx⟩) (.inl ⟨x, hx'⟩) hren w⟩

/-- A successful inference is followed by that of the renamed input. -/
theorem infer_ok (h : Renaming env env' e e') (hc : c.Ready) (hc' : c'.Ready) {T : Ty}
    (hT : (c.infer e env).1 = .ok T) :
    ∃ T', (c'.infer e' env').1 = .ok T' ∧ T.Renames Eq T' := by
  obtain ⟨he, henv⟩ := Context.given_of_infer hT
  have he' : e' ≠ .absent := by
    intro habsent
    subst habsent
    cases h.annotated
    exact he rfl
  have henv' : env' ≠ [] := by
    intro hnil
    subst hnil
    cases h.declared
    exact henv rfl
  obtain ⟨t, r, hsynth, rfl, -⟩ : ∃ t r, synth { env } .empty e (c.start e env) = .ok t r ∧
      (prune t r).1 = T ∧ _ := Context.infer_eq_ok (Prod.ext hT rfl)
  have hannotated : e.Retyped (Mirror.AlwaysLike (Bound env env' e e')) e' :=
    h.annotated.imp fun t ht t' ht' => h.alwaysLike (.inr ht) (.inr ht')
  set w := (hc.empty_start e env).mirror (hc'.empty_start e' env') (Bound env env' e e')
  rcases (Mirror.infer_follows e).2 w e' _ _ .empty .empty hannotated (h.namesLike w)
    w.scopes_empty t r hsynth with ⟨s, hcyclic⟩ | ⟨t', w', -, rfl, hsynth', hlike⟩
  · exact absurd hcyclic hc'.not_cyclic
  · exact ⟨_, Context.infer_of_synth he' henv' hsynth',
      hlike.renames (hc.skolems_of_synth h.ground hsynth)⟩

end Renaming

/-- **Inference does not depend on the names of bound variables** if no name is both bound and free
in what it is given. An inference succeeds if and only if it succeeds for the renamed input, and the
answers are renamings of each other, with the same metavariables. -/
theorem infer_renames (c c' : Context) (hc : c.Ready) (hc' : c'.Ready) (e e' : Expr)
    (env env' : Env) (h : Renaming env env' e e') :
    (∀ T, (c.infer e env).1 = .ok T → ∃ T', (c'.infer e' env').1 = .ok T' ∧ T.Renames Eq T') ∧
    ∀ T', (c'.infer e' env').1 = .ok T' → ∃ T, (c.infer e env).1 = .ok T ∧ T.Renames Eq T' := by
  refine ⟨fun T hT => h.infer_ok hc hc' hT, fun T' hT' => ?_⟩
  obtain ⟨T, hT, hren⟩ := h.symm.infer_ok hc' hc hT'
  exact ⟨T, hT, hren.symm⟩

/-- The function `f : forall b. b -> List (forall d. b -> d)` is annotated with its own type, and
applied. The answer is `?3 -> List (forall d. ?3 -> d)`, and a renaming of it if there are other
names in the environment and again other names in the annotation. -/
theorem infer_renames_of_annotated_function :
    let f (b d : String) : Ty := .all 0 b (.arrow 1 (.var b) (.app 2 (.var "List") (.all 3 d
      (.arrow 4 (.var b) (.var d)))))
    let env (b d : String) : Env := [[("f", f b d)]]
    let e (b d : String) : Expr := .fn "x" (.app (.ann (.var "f") (f b d)) (.var "x"))
    let x : Ty := .mvar ⟨18, 3, .empty⟩
    let answer : Ty := .arrow 0 x (.app 0 (.var "List") (.all 0 "d" (.arrow 0 x (.var "d"))))
    Renaming (env "b" "d") (env "p" "q") (e "b" "d") (e "r" "s") ∧
    ∃ T, (({} : Context).infer (e "b" "d") (env "b" "d")).1 = .ok T ∧ T.plain = answer ∧
      ∃ T', (({} : Context).infer (e "r" "s") (env "p" "q")).1 = .ok T' ∧ T.Renames Eq T' := by
  intro f env e x answer
  have hren : Renaming (env "b" "d") (env "p" "q") (e "b" "d") (e "r" "s") := by
    have hground : ∀ t ∈ (env "b" "d").flatten.map (·.2) ++ (e "b" "d").annotations, t.Ground := by
      decide
    have hleft : ∀ t ∈ (env "b" "d").flatten.map (·.2) ++ (e "b" "d").annotations,
        ∀ u ∈ (env "b" "d").flatten.map (·.2) ++ (e "b" "d").annotations,
        ∀ x ∈ t.binders, x ∉ u.freeNames := by decide
    have hright : ∀ t ∈ (env "p" "q").flatten.map (·.2) ++ (e "r" "s").annotations,
        ∀ u ∈ (env "p" "q").flatten.map (·.2) ++ (e "r" "s").annotations,
        ∀ x ∈ t.binders, x ∉ u.freeNames := by decide
    exact ⟨.cons (.cons ⟨rfl, by decide⟩ .nil) .nil,
      .fn _ (.app (.ann (.var _) (by decide)) (.var _)), fun t ht => hground t ht.mem,
      fun t u ht hu => hleft t ht.mem u hu.mem, fun t u ht hu => hright t ht.mem u hu.mem⟩
  have hready : ({} : Context).Ready := .inr ⟨rfl, rfl, rfl⟩
  have hplain : (({} : Context).infer (e "b" "d") (env "b" "d")).1.toOption.map Ty.plain =
      some answer := by decide +kernel
  obtain ⟨hfollows, -⟩ := infer_renames {} {} hready hready _ _ _ _ hren
  cases hT : (({} : Context).infer (e "b" "d") (env "b" "d")).1 with
  | error why => simp [hT, Except.toOption] at hplain
  | ok T => exact ⟨hren, T, rfl, by simpa [hT, Except.toOption] using hplain, hfollows T hT⟩

/-- **Inference tells alpha-equivalent types apart.** With `c : a`, `d : forall z. a -> z` and
`f : forall b. b -> (forall x. b -> x) -> int`, the application `f c d` has the type `int` if the
bound name `x` is `q`. If it is `a`, then opening `forall a. ?0 -> a` to check `d` also replaces the
constant `a` that `c` gave to `?0`. -/
theorem infer_of_captured_name :
    let env (x : String) : Env := [[("c", .var "a"),
      ("d", .all 0 "z" (.arrow 1 (.var "a") (.var "z"))),
      ("f", .all 2 "b" (.arrow 3 (.var "b") (.arrow 4 (.all 5 x (.arrow 6 (.var "b") (.var x)))
        (.var "int"))))]]
    let e : Expr := .app (.app (.var "f") (.var "c")) (.var "d")
    (env "a").Retyped (Ty.Renames Eq) (env "q") ∧ (env "a").Every Ty.Ground ∧
    (({} : Context).infer e (env "a")).1 = .error (.error (.mismatch (.var "a") (.skolem 0))) ∧
    (({} : Context).infer e (env "q")).1 = .ok (.var "int") := by
  intro env e
  refine ⟨?_, Env.every_of_declared (by decide), by decide +kernel, by decide +kernel⟩
  exact .cons (.cons ⟨rfl, by decide⟩ (.cons ⟨rfl, by decide⟩ (.cons ⟨rfl, by decide⟩ .nil))) .nil

end RankN
