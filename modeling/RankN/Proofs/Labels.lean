import RankN.Proofs.Soundness

/-!
# Types of a run, up to the run

Two runs that do the same allocate other metavariables and other skolem constants. To compare types
of different runs, metavariables are read by their ids alone, and skolem constants by *labels* that
are given to them from outside: the `form` of a type in a run is its expansion, up to renaming, with
its constants read this way.

A `Labelled` run is a valid run with labels for its skolem constants, no two of them the same.
Within one such run the form of a type loses nothing (`Labelled.nameless_eq`).

**What steps do to forms.** Opening a quantifier instantiates the form (`Table.form_opened`).
Solving a metavariable puts the form of its solution in its place (`Labelled.form_solve`). Whether a
type stands in the way of solving can be told from its form (`Labelled.obstacle?_eq_none`).
-/

namespace RankN

/-! ## Constants of nameless types -/

namespace Nameless

/-- Put a closed type for every constant. -/
@[simp]
def bind (f : Atom → Nameless) : Nameless → Nameless
  | .bound i => .bound i
  | .const c => f c
  | .all body => .all (body.bind f)
  | .arrow p q => .arrow (p.bind f) (q.bind f)
  | .app g a => .app (g.bind f) (a.bind f)

section

variable {A A' u : Nameless} {f g : Atom → Nameless} {φ : Atom → Atom} {k : Nat}

theorem bind_congr (h : ∀ c ∈ A.atoms, f c = g c) : A.bind f = A.bind g := by
  induction A with
  | bound i => rfl
  | const c => exact h c (by simp)
  | all body ih => simp [ih h]
  | arrow p q ihp ihq =>
    simp [ihp fun c hc => h c (by simp [hc]), ihq fun c hc => h c (by simp [hc])]
  | app q a ihq iha =>
    simp [ihq fun c hc => h c (by simp [hc]), iha fun c hc => h c (by simp [hc])]

theorem bind_bind (A : Nameless) : (A.bind f).bind g = A.bind fun c => (f c).bind g := by
  induction A with
  | bound i => rfl
  | const c => rfl
  | all body ih => simp [ih]
  | arrow p q ihp ihq => simp [ihp, ihq]
  | app q a ihq iha => simp [ihq, iha]

theorem bind_instantiate (hf : ∀ c, (f c).Closed) (A : Nameless) :
    (A.instantiate k u).bind f = (A.bind f).instantiate k (u.bind f) := by
  induction A generalizing k with
  | bound i => by_cases hi : i = k <;> simp [hi]
  | const c => exact ((hf c).at k).instantiate_eq.symm
  | all body ih => simp [ih]
  | arrow p q ihp ihq => simp [ihp, ihq]
  | app q a ihq iha => simp [ihq, iha]

theorem mem_atoms_bind {d : Atom} :
    d ∈ (A.bind f).atoms ↔ ∃ c ∈ A.atoms, d ∈ (f c).atoms := by
  induction A with
  | bound i => simp
  | const c => simp
  | all body ih => simpa using ih
  | arrow p q ihp ihq => simp [ihp, ihq, or_and_right, exists_or]
  | app q a ihq iha => simp [ihq, iha, or_and_right, exists_or]

/-- A type is determined by what it becomes if its constants are renamed apart. -/
theorem bind_const_inj (hφ : ∀ c ∈ A.atoms, ∀ d ∈ A'.atoms, φ c = φ d → c = d)
    (h : A.bind (fun c => .const (φ c)) = A'.bind fun c => .const (φ c)) : A = A' := by
  induction A generalizing A' with
  | bound i => cases A' <;> simp_all
  | const c =>
    cases A' with
    | const d =>
      simp only [bind, const.injEq] at h
      rw [hφ c (by simp) d (by simp) h]
    | _ => simp at h
  | all body ih =>
    cases A' with
    | all body' =>
      simp only [bind, all.injEq] at h
      rw [show body = body' from ih hφ h]
    | _ => simp at h
  | arrow p q ihp ihq =>
    cases A' with
    | arrow p' q' =>
      simp only [bind, arrow.injEq] at h
      rw [ihp (fun c hc d hd => hφ c (by simp [hc]) d (by simp [hd])) h.1,
        ihq (fun c hc d hd => hφ c (by simp [hc]) d (by simp [hd])) h.2]
    | _ => simp at h
  | app q a ihq iha =>
    cases A' with
    | app q' a' =>
      simp only [bind, app.injEq] at h
      rw [ihq (fun c hc d hd => hφ c (by simp [hc]) d (by simp [hd])) h.1,
        iha (fun c hc d hd => hφ c (by simp [hc]) d (by simp [hd])) h.2]
    | _ => simp at h

end

end Nameless

namespace Ty

/-- The meaning of a metavariable that has none: a constant. -/
abbrev asConst (m : MVar) : Nameless := .const (.mvar m)

variable {ctx : List String} {t : Ty}

theorem mvar_mem_atoms {m : MVar} : Atom.mvar m ∈ (t.read asConst ctx).atoms ↔ m ∈ t.mvars := by
  induction t generalizing ctx with
  | var x => by_cases hx : x ∈ ctx <;> simp [hx]
  | all n x body ih => simpa using ih
  | arrow n p q ihp ihq => simp [ihp, ihq]
  | app n f a ihf iha => simp [ihf, iha]
  | _ => simp

theorem skolem_mem_atoms {c : Int} :
    Atom.skolem c ∈ (t.read asConst ctx).atoms ↔ c ∈ t.skolems := by
  induction t generalizing ctx with
  | var x => by_cases hx : x ∈ ctx <;> simp [hx]
  | all n x body ih => simpa using ih
  | arrow n p q ihp ihq => simp [ihp, ihq]
  | app n f a ihf iha => simp [ihf, iha]
  | _ => simp

/-- Replacing a name by a constant instantiates its quantifier. -/
theorem nameless_replace {new : Ty} {c : Atom} (hnew : ∀ ctx, new.read asConst ctx = .const c)
    (t : Ty) (x : String) :
    (t.replace x new).nameless = (t.read asConst [x]).instantiate 0 (.const c) := by
  have hclosed : ∀ m, (asConst m).Closed := fun _ => trivial
  exact read_replace hclosed hnew List.not_mem_nil t

/-- Put a meaning for the constants of metavariables, and keep the other constants. -/
def meant (θ : MVar → Nameless) : Atom → Nameless
  | .mvar m => θ m
  | c => .const c

/-- Giving metavariables a meaning is putting it for their constants. -/
theorem read_eq_bind (θ : MVar → Nameless) (t : Ty) (ctx : List String) :
    t.read θ ctx = (t.read asConst ctx).bind (meant θ) := by
  induction t generalizing ctx with
  | var x => by_cases hx : x ∈ ctx <;> simp [hx, meant]
  | all n x body ih => simp [ih]
  | arrow n p q ihp ihq => simp [ihp, ihq]
  | app n g a ihg iha => simp [ihg, iha]
  | mvar m => simp [meant]
  | _ => simp [meant]

end Ty

/-! ## Forms -/

/-- A constant, read by its label if it is a skolem constant and by its id if it is a
metavariable. -/
def Atom.label (κ : Int → Int) : Atom → Atom
  | .skolem c => .skolem (κ c)
  | .mvar m => .mvar ⟨0, m.id, .empty⟩
  | c => c

namespace Table

variable {tb tb' : Table} {κ : Int → Int} {ctx : List String} {t u : Ty} {m : MVar}

/-- What a type is where the names of `ctx` are bound: its expansion up to renaming, its constants
read by labels and ids. -/
def formUnder (tb : Table) (κ : Int → Int) (ctx : List String) (t : Ty) : Nameless :=
  ((tb.expand t).read Ty.asConst ctx).bind fun c => .const (c.label κ)

/-- The form of a type. -/
def form (tb : Table) (κ : Int → Int) (t : Ty) : Nameless := tb.formUnder κ [] t

theorem form_def : tb.form κ t = (tb.expand t).nameless.bind fun c => .const (c.label κ) := rfl

/-- **Opening a quantifier instantiates its form.** -/
theorem form_opened {x : String} {new : Ty} {c : Atom}
    (hnew : ∀ ctx, new.read Ty.asConst ctx = .const c)
    (ht : tb'.expand t = (tb.expand u).replace x new) :
    tb'.form κ t = (tb.formUnder κ [x] u).instantiate 0 (.const (c.label κ)) := by
  have hbind := Nameless.bind_instantiate (f := fun d => .const (d.label κ)) (k := 0)
    (u := .const c) (fun _ => trivial) ((tb.expand u).read Ty.asConst [x])
  rw [form_def, ht, Ty.nameless_replace hnew, hbind]
  rfl

end Table

/-! ## Labelled runs -/

/-- A valid run whose skolem constants have labels, all different and below a bound. -/
structure Labelled (B : String → Prop) where
  run : Run
  label : Int → Int
  next : Int
  valid : run.Valid (Ty.Named B [])
  injective : ∀ c d, run.Allocated c → run.Allocated d → label c = label d → c = d
  below : ∀ c, run.Allocated c → label c < next

namespace Labelled

variable {B : String → Prop} (ℓ : Labelled B) {t u : Ty} {m : MVar}

/-- The form of a type in a labelled run. -/
def form (t : Ty) : Nameless := ℓ.run.table.form ℓ.label t

@[simp] theorem form_var (x : String) : ℓ.form (.var x) = .const (.name x) := rfl

@[simp] theorem form_skolem (c : Int) : ℓ.form (.skolem c) = .const (.skolem (ℓ.label c)) := rfl

@[simp]
theorem form_unknown (n : Nat) (k : String) :
    ℓ.form (.unknown n k) = .const (.unknown n k) := rfl

@[simp] theorem form_absent : ℓ.form .absent = .const .absent := rfl

@[simp]
theorem form_arrow (n : Nat) (p q : Ty) :
    ℓ.form (.arrow n p q) = .arrow (ℓ.form p) (ℓ.form q) := rfl

@[simp]
theorem form_app (n : Nat) (f a : Ty) : ℓ.form (.app n f a) = .app (ℓ.form f) (ℓ.form a) := rfl

@[simp]
theorem form_all (n : Nat) (x : String) (t : Ty) :
    ℓ.form (.all n x t) = .all (ℓ.run.table.formUnder ℓ.label [x] t) := rfl

theorem form_unsolved (h : ℓ.run.table.solution? m = none) :
    ℓ.form (.mvar m) = .const (.mvar ⟨0, m.id, .empty⟩) := by
  rw [form, Table.form_def, Table.expand_unsolved h]
  rfl

theorem form_solved (h : ℓ.run.table.solution? m = some u) : ℓ.form (.mvar m) = ℓ.form u := by
  rw [form, Table.form_def, ℓ.valid.acyclic.expand_solved h]
  rfl

/-- Labels and ids tell the constants of a run apart. -/
theorem nameless_eq {ℓ : Labelled B} (ht : t.Over ℓ.run) (hu : u.Over ℓ.run)
    (h : ℓ.form t = ℓ.form u) :
    (ℓ.run.table.expand t).nameless = (ℓ.run.table.expand u).nameless := by
  refine Nameless.bind_const_inj (fun c hc d hd hcd => ?_) h
  have ht' := ht.expand ℓ.valid
  have hu' := hu.expand ℓ.valid
  cases c with
  | skolem c =>
    cases d with
    | skolem d =>
      have hc := ht'.2 c (Ty.skolem_mem_atoms.1 hc)
      have hd := hu'.2 d (Ty.skolem_mem_atoms.1 hd)
      rw [ℓ.injective c d hc hd (by simpa [Atom.label] using hcd)]
    | _ => simp [Atom.label] at hcd
  | mvar m =>
    cases d with
    | mvar k =>
      have hm := ht'.1 m (Ty.mvar_mem_atoms.1 hc)
      have hk := hu'.1 k (Ty.mvar_mem_atoms.1 hd)
      have hid : m.id = k.id := by simpa [Atom.label] using hcd
      rw [Table.eq_of_owns hm hk (by rw [hid])]
    | _ => simp [Atom.label] at hcd
  | _ => cases d <;> simp_all [Atom.label]

theorem mem_atoms_form {d : Atom} :
    d ∈ (ℓ.form t).atoms ↔ ∃ c ∈ (ℓ.run.table.expand t).nameless.atoms, d = c.label ℓ.label := by
  simp [form, Table.form_def, Nameless.mem_atoms_bind]

/-- A metavariable occurs in the expansion of a type if its id does in the form. -/
theorem mvar_mem_form (ht : t.Over ℓ.run) (ho : ℓ.run.table.owns m) :
    Atom.mvar ⟨0, m.id, .empty⟩ ∈ (ℓ.form t).atoms ↔ m ∈ (ℓ.run.table.expand t).mvars := by
  rw [ℓ.mem_atoms_form]
  constructor
  · rintro ⟨c, hc, heq⟩
    cases c with
    | mvar k =>
      have hk := Ty.mvar_mem_atoms.1 hc
      have hid : m.id = k.id := by simpa [Atom.label] using heq
      rwa [Table.eq_of_owns ho ((ht.expand ℓ.valid).1 k hk) (by rw [hid])]
    | _ => simp [Atom.label] at heq
  · exact fun hm => ⟨.mvar m, Ty.mvar_mem_atoms.2 hm, rfl⟩

/-- A skolem constant occurs in the expansion of a type if its label does in the form. -/
theorem skolem_mem_form {l : Int} :
    Atom.skolem l ∈ (ℓ.form t).atoms ↔ ∃ c ∈ (ℓ.run.table.expand t).skolems, ℓ.label c = l := by
  rw [ℓ.mem_atoms_form]
  constructor
  · rintro ⟨c, hc, heq⟩
    cases c with
    | skolem c => exact ⟨c, Ty.skolem_mem_atoms.1 hc, by simpa [Atom.label] using heq.symm⟩
    | _ => simp [Atom.label] at heq
  · rintro ⟨c, hc, rfl⟩
    exact ⟨.skolem c, Ty.skolem_mem_atoms.2 hc, rfl⟩

/-- **Obstacles show in the form.** A metavariable can be solved by a type if the form of the type
mentions other metavariables of its scope only, and labels of constants of its scope. -/
theorem obstacle?_eq_none (ht : t.Over ℓ.run) (ho : ℓ.run.table.owns m)
    (hm : ℓ.run.table.solution? m = none) :
    obstacle? ℓ.run.table m t = none ↔
      (∀ k, ℓ.run.table.owns k → Atom.mvar ⟨0, k.id, .empty⟩ ∈ (ℓ.form t).atoms →
        k ≠ m ∧ k.scope = m.scope) ∧
      ∀ l, Atom.skolem l ∈ (ℓ.form t).atoms → ∃ c ∈ m.scope, ℓ.label c = l := by
  rw [RankN.obstacle?_eq_none ℓ.valid.acyclic hm]
  have hover := ht.expand ℓ.valid
  constructor
  · rintro ⟨hocc, hmvars, hskolems⟩
    refine ⟨fun k hk hmem => ?_, fun l hl => ?_⟩
    · have hmem := (ℓ.mvar_mem_form ht hk).1 hmem
      exact ⟨fun hkm => hocc (hkm ▸ hmem), hmvars k hmem⟩
    · obtain ⟨c, hc, hcl⟩ := ℓ.skolem_mem_form.1 hl
      exact ⟨c, hskolems c hc, hcl⟩
  · rintro ⟨hmvars, hskolems⟩
    refine ⟨fun hmem => (hmvars m ho ((ℓ.mvar_mem_form ht ho).2 hmem)).1 rfl, fun k hk => ?_,
      fun c hc => ?_⟩
    · have hko := hover.1 k hk
      exact (hmvars k hko ((ℓ.mvar_mem_form ht hko).2 hk)).2
    · obtain ⟨d, hd, hdc⟩ := hskolems _ (ℓ.skolem_mem_form.2 ⟨c, hc, rfl⟩)
      rwa [← ℓ.injective d c (ℓ.valid.scopes m ho d hd) (hover.2 c hc) hdc]

/-! ## Steps of a labelled run -/

/-- Run on without touching the table. New constants get the labels from `next` on. -/
def advance (r : Run) (h : ℓ.run.Idles r) (k : Nat) (hk : r.skolems ≤ ℓ.run.skolems + k) :
    Labelled B where
  run := r
  label c := if c < ℓ.run.skolems then ℓ.label c else ℓ.next + (c - ℓ.run.skolems)
  next := ℓ.next + k
  valid := h.valid ℓ.valid
  injective c d hc hd hcd := by
    unfold Run.Allocated at hc hd
    split at hcd
    · rename_i hc'
      have hlc := ℓ.below c ⟨hc.1, hc'⟩
      split at hcd
      · rename_i hd'
        exact ℓ.injective c d ⟨hc.1, hc'⟩ ⟨hd.1, hd'⟩ hcd
      · omega
    · split at hcd
      · rename_i hd'
        have hld := ℓ.below d ⟨hd.1, hd'⟩
        omega
      · omega
  below c hc := by
    unfold Run.Allocated at hc
    split
    · rename_i hc'
      have hlc := ℓ.below c ⟨hc.1, hc'⟩
      omega
    · omega

theorem label_advance {r : Run} (h : ℓ.run.Idles r) {k : Nat}
    (hk : r.skolems ≤ ℓ.run.skolems + k) {c : Int} (hc : ℓ.run.Allocated c) :
    (ℓ.advance r h k hk).label c = ℓ.label c := if_pos hc.2

theorem form_advance {r : Run} (h : ℓ.run.Idles r) {k : Nat}
    (hk : r.skolems ≤ ℓ.run.skolems + k) (ht : t.Over ℓ.run) :
    (ℓ.advance r h k hk).form t = ℓ.form t := by
  have htable : (ℓ.advance r h k hk).run.table = ℓ.run.table := h.table
  rw [form, Table.form_def, htable]
  refine Nameless.bind_congr fun c hc => ?_
  cases c with
  | skolem c =>
    have hc := (ht.expand ℓ.valid).2 c (Ty.skolem_mem_atoms.1 hc)
    simp only [Atom.label, ℓ.label_advance h hk hc]
  | _ => rfl

/-- Allocate a metavariable. -/
def addMVar (scope : Scope) (hs : scope.Over ℓ.run) : Labelled B where
  run := (Run.newMVar scope ℓ.run).2
  label := ℓ.label
  next := ℓ.next
  valid := ℓ.valid.newMVar hs
  injective := ℓ.injective
  below := ℓ.below

theorem form_addMVar {scope : Scope} (hs : scope.Over ℓ.run) (t : Ty) :
    (ℓ.addMVar scope hs).form t = ℓ.form t := by
  have hexp := ℓ.valid.acyclic.expand_congr (ℓ.run.solution?_newMVar scope) t
  have hrun : (ℓ.addMVar scope hs).run = (Run.newMVar scope ℓ.run).2 := rfl
  rw [form, Table.form_def, hrun, hexp]
  rfl

/-- What there must be to solve a metavariable by a type. -/
structure Solvable (m : MVar) (t : Ty) : Prop where
  owned : ℓ.run.table.owns m
  unsolved : ℓ.run.table.solution? m = none
  type : t.Of (Ty.Named B []) ℓ.run
  free : obstacle? ℓ.run.table m t = none

variable {ℓ}

theorem Solvable.not_mem (h : ℓ.Solvable m t) : m ∉ (ℓ.run.table.expand t).mvars :=
  ((RankN.obstacle?_eq_none ℓ.valid.acyclic h.unsolved).1 h.free).1

/-- Solve a metavariable. -/
def solve (ℓ : Labelled B) (m : MVar) (t : Ty) (h : ℓ.Solvable m t) : Labelled B where
  run := ℓ.run.solved m t
  label := ℓ.label
  next := ℓ.next
  valid := ℓ.valid.solved (Ty.stable_named B) h.owned h.unsolved h.type h.not_mem
    ((RankN.obstacle?_eq_none ℓ.valid.acyclic h.unsolved).1 h.free).2
  injective := ℓ.injective
  below := ℓ.below

end Labelled

/-- Put a type for the metavariable of an id. -/
def Nameless.plug (i : Int) (A : Nameless) : Atom → Nameless
  | .mvar k => if k.id = i then A else .const (.mvar k)
  | c => .const c

/-- **Solving a metavariable puts the form of its solution in its place.** -/
theorem Labelled.form_solve {B : String → Prop} {ℓ : Labelled B} {m : MVar} {t u : Ty}
    (h : ℓ.Solvable m t) (hu : u.Of (Ty.Named B []) ℓ.run) :
    (ℓ.solve m t h).form u = (ℓ.form u).bind (Nameless.plug m.id (ℓ.form t)) := by
  set f : MVar → Ty := Function.update .mvar m (ℓ.run.table.expand t) with hf
  have hexp : (ℓ.solve m t h).run.table.expand u = (ℓ.run.table.expand u).fill f :=
    ℓ.valid.acyclic.expand_write h.owned h.unsolved h.not_mem u
  have hnamed : ∀ k, (f k).Named B [] := by
    intro k
    by_cases hk : k = m
    · simpa [hf, hk] using h.type.mem
    · simp [hf, Function.update_of_ne hk, Ty.Named]
  -- The solution stands for the constant of the metavariable.
  have hread : ((ℓ.run.table.expand u).fill f).nameless =
      (ℓ.run.table.expand u).nameless.bind (Ty.meant fun k => (f k).nameless) := by
    have hfill := Ty.Named.read_fill (θ := Ty.asConst)
      (hu.mem.fill fun k _ => hnamed k) (by simp) fun k _ => hnamed k
    exact Eq.trans hfill (Ty.read_eq_bind _ _ _)
  have hform : ℓ.form u = _ := Table.form_def
  rw [form, Table.form_def, hexp, hread, hform, Nameless.bind_bind, Nameless.bind_bind]
  refine Nameless.bind_congr fun c hc => ?_
  cases c with
  | mvar k =>
    have hk := (hu.isOver.expand ℓ.valid).1 k (Ty.mvar_mem_atoms.1 hc)
    by_cases hkm : k = m
    · subst hkm
      simp only [Ty.meant, hf, Function.update_self, Nameless.bind, Atom.label, Nameless.plug, if_true]
      rfl
    · have hid : k.id ≠ m.id := fun hid => hkm (Table.eq_of_owns hk h.owned (by rw [hid]))
      simp [Ty.meant, hf, Function.update_of_ne hkm, Nameless.plug, Atom.label, hid, Ty.nameless]
  | _ => rfl

end RankN
