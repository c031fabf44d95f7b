import RankN.Proofs.Pruning
import RankN.Proofs.Steps
import RankN.Proofs.Substitution

/-!
# Valid runs

A run is *valid* when its table is in order: metavariables are numbered by their positions, scopes
and solutions mention only what the run has allocated, no metavariable leads back to itself, and
the expansion of every solution fits the scope of its metavariable.

Often more is known of all types in a run: they belong to some class `P` that inference does not
leave (`Ty.Stable`). Validity carries such a class along, and says nothing about it when `P` holds of
every type.

Most of the run grows monotonically. One run *extends* another when it still has all its
metavariables, skolem constants and solutions (`Run.Extends`). What a type is made of stays
allocated in every extension. It *idles* when it has only drawn constants and stamps since
(`Run.Idles`).

`x.Keeps P r Q` says that `x` leaves a valid run behind, however it ends, and that a run it leaves
with an answer extends the one it started from. This file has the rules for `Keeps` and proves it of
the primitive operations; `RankN.Proofs.Preservation` has the functions built from them.
-/

namespace RankN

open RankN.Action Relation

/-! ## What a run has allocated -/

/-- The skolem constant has been allocated by the run. -/
def Run.Allocated (r : Run) (id : Int) : Prop := 0 ≤ id ∧ id < r.skolems

instance (r : Run) (id : Int) : Decidable (r.Allocated id) := inferInstanceAs (Decidable (_ ∧ _))

/-- The type mentions metavariables of the run only, and skolem constants it has allocated. -/
def Ty.Over (r : Run) (t : Ty) : Prop := t.Leaves (fun m => r.table.owns m) r.Allocated

instance (r : Run) (t : Ty) : Decidable (t.Over r) := inferInstanceAs (Decidable (t.Leaves _ _))

/-- A type of the run whose expansion is in `P`. -/
structure Ty.Of (P : Ty → Prop) (r : Run) (t : Ty) : Prop where
  isOver : t.Over r
  mem : P (r.table.expand t)

/-- A run whose table is in order, with solutions in `P`. -/
structure Run.Valid (P : Ty → Prop) (r : Run) : Prop where
  /-- Metavariables are counted correctly. -/
  count : r.mvars = r.table.size
  /-- A metavariable's `id` is its position. -/
  ids : ∀ i m, r.table.mvarAt? i = some m → m.id = i
  /-- Scopes hold allocated constants. -/
  scopes : ∀ m, r.table.owns m → ∀ id ∈ m.scope, r.Allocated id
  /-- Solutions are types of the run. -/
  solutions : ∀ m t, r.table.solution? m = some t → t.Of P r
  /-- No metavariable leads back to itself. -/
  acyclic : r.table.Acyclic
  /-- Solutions, once expanded, fit the scope of their metavariables. -/
  fits : ∀ m t, r.table.solution? m = some t → (r.table.expand t).Fits m.scope

/-- The metavariables that the type mentions are those of the table. -/
def Ty.Owned (tb : Table) (t : Ty) : Prop := t.Leaves (fun m => tb.owns m) fun _ => True

instance (tb : Table) (t : Ty) : Decidable (t.Owned tb) :=
  inferInstanceAs (Decidable (t.Leaves _ _))

/-- A run whose table is in order, whatever scopes and skolem constants are in it. -/
structure Run.Tidy (r : Run) : Prop where
  count : r.mvars = r.table.size
  ids : ∀ i m, r.table.mvarAt? i = some m → m.id = i
  solutions : ∀ m t, r.table.solution? m = some t → t.Owned r.table
  acyclic : r.table.Acyclic

/-- A class of types that inference does not leave: closed under taking types apart, opening
quantifiers at skolem constants and metavariables, and filling in metavariables. -/
structure Ty.Stable (P : Ty → Prop) : Prop where
  mvar : ∀ m, P (.mvar m)
  arrow : ∀ {n p q}, P (.arrow n p q) ↔ P p ∧ P q
  app : ∀ {n f a}, P (.app n f a) → P f ∧ P a
  atSkolem : ∀ {n x t}, P (.all n x t) → ∀ c, P (t.replace x (.skolem c))
  atMVar : ∀ {n x t}, P (.all n x t) → ∀ m, P (t.replace x (.mvar m))
  fill : ∀ {t f}, P t → (∀ m ∈ t.mvars, P (f m)) → P (t.fill f)

/-- The class of all types. -/
abbrev Ty.Any (_ : Ty) : Prop := True

theorem Ty.stable_any : Ty.Stable Ty.Any :=
  ⟨fun _ => trivial, by simp, by simp, by simp, by simp, by simp⟩

/-- The run `r'` still has all that `r` has. -/
structure Run.Extends (r r' : Run) : Prop where
  skolems : r.skolems ≤ r'.skolems
  owns : ∀ m, r.table.owns m → r'.table.owns m
  solution : ∀ m t, r.table.solution? m = some t → r'.table.solution? m = some t

/-- The run `r'` is `r` with more skolem constants, perhaps. -/
structure Run.Idles (r r' : Run) : Prop where
  table : r'.table = r.table
  mvars : r'.mvars = r.mvars
  skolems : r.skolems ≤ r'.skolems

/-- The runs have the same table and counters. -/
structure Run.Agrees (r r' : Run) : Prop where
  table : r'.table = r.table
  mvars : r'.mvars = r.mvars
  skolems : r'.skolems = r.skolems

namespace Run.Extends

variable {r r' r'' : Run}

theorem refl (r : Run) : r.Extends r := ⟨le_rfl, fun _ h => h, fun _ _ h => h⟩

theorem trans (h : r.Extends r') (h' : r'.Extends r'') : r.Extends r'' :=
  ⟨h.skolems.trans h'.skolems, fun m hm => h'.owns m (h.owns m hm),
    fun m t ht => h'.solution m t (h.solution m t ht)⟩

theorem allocated (h : r.Extends r') {id : Int} (hid : r.Allocated id) : r'.Allocated id := by
  have := h.skolems
  unfold Run.Allocated at *
  omega

theorem isOver (h : r.Extends r') {t : Ty} (ht : t.Over r) : t.Over r' :=
  ht.mono h.owns fun _ => h.allocated

end Run.Extends

namespace Run.Idles

variable {r r' r'' : Run} {P : Ty → Prop}

theorem trans (h : r.Idles r') (h' : r'.Idles r'') : r.Idles r'' :=
  ⟨h'.table.trans h.table, h'.mvars.trans h.mvars, h.skolems.trans h'.skolems⟩

theorem extends_ (h : r.Idles r') : r.Extends r' :=
  ⟨h.skolems, fun m hm => by rwa [h.table], fun m t ht => by rwa [h.table]⟩

theorem of (h : r.Idles r') {t : Ty} (ht : t.Of P r) : t.Of P r' := by
  refine ⟨h.extends_.isOver ht.isOver, ?_⟩
  rw [h.table]
  exact ht.mem

theorem valid (h : r.Idles r') (hr : r.Valid P) : r'.Valid P where
  count := by rw [h.mvars, h.table, hr.count]
  ids := by rw [h.table]; exact hr.ids
  scopes m hm id hid := by
    rw [h.table] at hm
    exact h.extends_.allocated (hr.scopes m hm id hid)
  solutions m t ht := by
    rw [h.table] at ht
    exact h.of (hr.solutions m t ht)
  acyclic := by rw [h.table]; exact hr.acyclic
  fits := by rw [h.table]; exact hr.fits

end Run.Idles

namespace Run.Agrees

variable {r r' : Run} {P : Ty → Prop}

theorem idles (h : r.Agrees r') : r.Idles r' := ⟨h.table, h.mvars, h.skolems.ge⟩

theorem extends_ (h : r.Agrees r') : r.Extends r' := h.idles.extends_

theorem of (h : r.Agrees r') {t : Ty} (ht : t.Of P r) : t.Of P r' := h.idles.of ht

theorem valid (h : r.Agrees r') (hr : r.Valid P) : r'.Valid P := h.idles.valid hr

end Run.Agrees

theorem Ty.Over.owned {r : Run} {t : Ty} (h : t.Over r) : t.Owned r.table :=
  h.mono (fun _ hm => hm) fun _ _ => trivial

theorem Run.Valid.tidy {P : Ty → Prop} {r : Run} (hr : r.Valid P) : r.Tidy :=
  ⟨hr.count, hr.ids, fun m t ht => (hr.solutions m t ht).isOver.owned, hr.acyclic⟩

theorem Run.Agrees.tidy {r r' : Run} (h : r.Agrees r') (hr : r.Tidy) : r'.Tidy where
  count := by rw [h.mvars, h.table, hr.count]
  ids := by rw [h.table]; exact hr.ids
  solutions := by rw [h.table]; exact hr.solutions
  acyclic := by rw [h.table]; exact hr.acyclic

theorem Run.agrees_log (e : Event) (r : Run) : r.Agrees (Run.log e r).2 := by
  unfold Run.log
  split
  · exact ⟨rfl, rfl, rfl⟩
  · exact ⟨rfl, rfl, rfl⟩

theorem Run.Restamped.agrees {r r' : Run} (h : r.Restamped r') : r.Agrees r' :=
  ⟨h.table, h.mvars, h.skolems⟩

variable {P : Ty → Prop}

/-! ## Types of a run -/

section

variable {r r' : Run}

/-- What holds of a type and of all solutions holds of the expansion. -/
theorem Ty.Stable.expand (hP : Ty.Stable P) {tb : Table} (ha : tb.Acyclic)
    (htb : ∀ m u, tb.solution? m = some u → P (tb.expand u)) {t : Ty} (ht : P t.plain) :
    P (tb.expand t) := by
  rw [tb.expand_eq_fill]
  refine hP.fill ht fun m _ => ?_
  cases hm : tb.solution? m with
  | none =>
    rw [Table.expand_unsolved hm]
    exact hP.mvar m
  | some u =>
    rw [ha.expand_solved hm]
    exact htb m u hm

/-- A type of a run is one of every valid extension. -/
theorem Ty.Of.mono (hP : Ty.Stable P) (hr : r.Valid P) (hr' : r'.Valid P) (he : r.Extends r')
    {t : Ty} (ht : t.Of P r) : t.Of P r' := by
  refine ⟨he.isOver ht.isOver, ?_⟩
  rw [← hr.acyclic.expand_expand_of_le hr'.acyclic he.solution]
  refine hP.expand hr'.acyclic (fun m u hm => (hr'.solutions m u hm).mem) ?_
  rw [Table.plain_expand]
  exact ht.mem

theorem Ty.of_arrow (hP : Ty.Stable P) {n : Nat} {p q : Ty} :
    (Ty.arrow n p q).Of P r ↔ p.Of P r ∧ q.Of P r := by
  constructor
  · rintro ⟨ho, hm⟩
    obtain ⟨hp, hq⟩ := Ty.leaves_arrow.1 ho
    obtain ⟨hp', hq'⟩ := hP.arrow.1 hm
    exact ⟨⟨hp, hp'⟩, hq, hq'⟩
  · rintro ⟨⟨hp, hp'⟩, hq, hq'⟩
    exact ⟨Ty.leaves_arrow.2 ⟨hp, hq⟩, hP.arrow.2 ⟨hp', hq'⟩⟩

theorem Ty.Of.app (hP : Ty.Stable P) {n : Nat} {f a : Ty} (h : (Ty.app n f a).Of P r) :
    f.Of P r ∧ a.Of P r := by
  obtain ⟨hf, ha⟩ := Ty.leaves_app.1 h.isOver
  obtain ⟨hf', ha'⟩ := hP.app h.mem
  exact ⟨⟨hf, hf'⟩, ha, ha'⟩

theorem Ty.of_mvar (hP : Ty.Stable P) (hr : r.Valid P) {m : MVar} (hm : r.table.owns m) :
    (Ty.mvar m).Of P r := by
  refine ⟨by simpa [Ty.Over] using hm, ?_⟩
  cases hs : r.table.solution? m with
  | none =>
    rw [Table.expand_unsolved hs]
    exact hP.mvar m
  | some u =>
    rw [hr.acyclic.expand_solved hs]
    exact (hr.solutions m u hs).mem

theorem Ty.Over.expand (hr : r.Valid P) {t : Ty} (ht : t.Over r) : (r.table.expand t).Over r :=
  hr.acyclic.leaves_expand_of (fun m u hu => (hr.solutions m u hu).isOver) ht

/-- What a metavariable means fits its scope. -/
theorem Run.Valid.fits_mvar (hr : r.Valid P) (m : MVar) :
    (r.table.expand (.mvar m)).Fits m.scope := by
  cases hs : r.table.solution? m with
  | none => simp [Table.expand_unsolved hs, Ty.Fits]
  | some u =>
    rw [hr.acyclic.expand_solved hs]
    exact hr.fits m u hs

theorem Ty.Of.owns {m : MVar} (h : (Ty.mvar m).Of P r) : r.table.owns m := by
  simpa [Ty.Over] using h.isOver

end

/-! ## The first run -/

/-- A run that has allocated nothing. -/
structure Run.Empty (r : Run) : Prop where
  table : r.table = {}
  mvars : r.mvars = 0
  skolems : r.skolems = 0

theorem Run.Empty.valid {r : Run} (h : r.Empty) : r.Valid P where
  count := by rw [h.mvars, h.table]; rfl
  ids i m hm := by simp [h.table, Table.mvarAt?] at hm
  scopes m hm := by simp [h.table] at hm
  solutions m t ht := by simp [h.table] at ht
  acyclic := by rw [h.table]; exact Table.acyclic_empty
  fits m t ht := by simp [h.table] at ht

/-! ## Allocating -/

section

variable {r : Run} {scope : Scope}

/-- The position after the last is nobody's. -/
theorem Run.Tidy.not_owns_next (hr : r.Tidy) {m : MVar} (hm : m.id = r.mvars) :
    ¬ r.table.owns m := by
  intro h
  have := Table.lt_size_of_owns h
  rw [← hr.count] at this
  omega

theorem Run.solution?_newMVar (r : Run) (scope : Scope) (m : MVar) :
    (Run.newMVar scope r).2.table.solution? m = r.table.solution? m :=
  Table.solution?_push _ _ m

theorem Run.Tidy.owns_newMVar (hr : r.Tidy) (scope : Scope) (m : MVar) :
    (Run.newMVar scope r).2.table.owns m ↔ m = (Run.newMVar scope r).1 ∨ r.table.owns m :=
  Table.owns_push_iff (congrArg Int.ofNat hr.count)

/-- The run `r'` is `r` with one more metavariable. -/
structure Run.Adds (r : Run) (scope : Scope) (m : MVar) (r' : Run) : Prop where
  scope : m.scope = scope
  fresh : ¬ r.table.owns m
  owns : ∀ k, r'.table.owns k ↔ k = m ∨ r.table.owns k
  solution : ∀ k, r'.table.solution? k = r.table.solution? k
  skolems : r'.skolems = r.skolems

theorem Run.Adds.owned {m : MVar} {r' : Run} (h : r.Adds scope m r') : r'.table.owns m :=
  (h.owns m).2 (.inl rfl)

theorem Run.Adds.unsolved {m : MVar} {r' : Run} (h : r.Adds scope m r') :
    r'.table.solution? m = none := by
  rw [h.solution]
  cases hs : r.table.solution? m with
  | none => rfl
  | some t => exact absurd (Table.owns_of_solution? hs) h.fresh

/-- An arrow between two new metavariables is its own expansion. -/
theorem Run.Adds.expand_arrow {s : Scope} {p q : MVar} {r₁ r₂ : Run} (hp : r.Adds scope p r₁)
    (hq : r₁.Adds s q r₂) (n : Nat) :
    r₂.table.expand (.arrow n (.mvar p) (.mvar q)) = .arrow 0 (.mvar p) (.mvar q) := by
  have hpu : r₂.table.solution? p = none := by rw [hq.solution, hp.unsolved]
  rw [Table.expand_arrow, Table.expand_unsolved hpu, Table.expand_unsolved hq.unsolved]

/-- New metavariables are none of those that were there. -/
theorem Run.Adds.ne_of_owns {m k : MVar} {r' : Run} (h : r.Adds scope m r')
    (hk : r.table.owns k) : k ≠ m := by
  rintro rfl
  exact h.fresh hk

theorem Run.Tidy.adds_newMVar (hr : r.Tidy) (scope : Scope) :
    r.Adds scope (Run.newMVar scope r).1 (Run.newMVar scope r).2 :=
  ⟨rfl, hr.not_owns_next rfl, hr.owns_newMVar scope, r.solution?_newMVar scope, rfl⟩

theorem Run.Valid.adds_newMVar (hr : r.Valid P) (scope : Scope) :
    r.Adds scope (Run.newMVar scope r).1 (Run.newMVar scope r).2 := hr.tidy.adds_newMVar scope

theorem Run.extends_newMVar (r : Run) (scope : Scope) : r.Extends (Run.newMVar scope r).2 :=
  ⟨le_rfl, fun _ h => Table.owns_push_of_owns h, fun m _ h => (r.solution?_newMVar scope m).trans h⟩

theorem Run.Tidy.newMVar (hr : r.Tidy) (scope : Scope) : (Run.newMVar scope r).2.Tidy := by
  have hsol := r.solution?_newMVar scope
  refine ⟨?_, fun i m hm => ?_, fun m t ht => ?_, hr.acyclic.congr hsol⟩
  · show r.mvars + 1 = (r.table.push _).size
    rw [Table.size_push, hr.count]
  · have hpush : (r.table.push (Run.newMVar scope r).1).mvarAt? i = some m := hm
    simp only [Table.mvarAt?, Table.push, Array.getElem?_push] at hpush
    split at hpush
    · rename_i hi
      cases hpush
      rw [hi]
      exact congrArg Int.ofNat hr.count
    · exact hr.ids i m hpush
  · rw [hsol] at ht
    exact (hr.solutions m t ht).mono (r.extends_newMVar scope).owns fun _ h => h

theorem Run.Valid.newMVar (hr : r.Valid P) (hs : ∀ id ∈ scope, r.Allocated id) :
    (Run.newMVar scope r).2.Valid P := by
  have hsol := r.solution?_newMVar scope
  have htidy := hr.tidy.newMVar scope
  refine ⟨htidy.count, htidy.ids, fun m hm => ?_, fun m t ht => ?_, htidy.acyclic, fun m t ht => ?_⟩
  · rcases (hr.tidy.owns_newMVar scope m).1 hm with rfl | hm
    · exact hs
    · exact hr.scopes m hm
  · rw [hsol] at ht
    refine ⟨(r.extends_newMVar scope).isOver (hr.solutions m t ht).isOver, ?_⟩
    rw [hr.acyclic.expand_congr hsol]
    exact (hr.solutions m t ht).mem
  · rw [hsol] at ht
    rw [hr.acyclic.expand_congr hsol]
    exact hr.fits m t ht

theorem Run.extends_newSkolem (r : Run) : r.Extends (Run.newSkolem r).2 :=
  ⟨Nat.le_succ _, fun _ h => h, fun _ _ h => h⟩

theorem Run.idles_newSkolem (r : Run) : r.Idles (Run.newSkolem r).2 := ⟨rfl, rfl, Nat.le_succ _⟩

theorem Run.Valid.newSkolem (hr : r.Valid P) : (Run.newSkolem r).2.Valid P :=
  r.idles_newSkolem.valid hr

end

/-! ## Solving -/

/-- The run after solving a metavariable. -/
def Run.solved (r : Run) (m : MVar) (t : Ty) : Run := { r with table := r.table.write m t }

section

variable {r : Run} {m : MVar} {t : Ty}

theorem Run.extends_solved (r : Run) (hm : r.table.solution? m = none) (t : Ty) :
    r.Extends (r.solved m t) := by
  refine ⟨le_rfl, fun k hk => ?_, fun k u hk => ?_⟩
  · simpa [Run.solved] using hk
  · have : k ≠ m := by
      rintro rfl
      rw [hm] at hk
      cases hk
    exact (Table.solution?_write_of_ne _ this t).trans hk

/-- The solutions after solving a metavariable: the new one, and the old ones. -/
theorem Run.solution?_solved (ho : r.table.owns m) {k : MVar} {u : Ty}
    (h : (r.solved m t).table.solution? k = some u) :
    (k = m ∧ u = t) ∨ r.table.solution? k = some u := by
  by_cases hkm : k = m
  · subst hkm
    rw [show (r.solved k t).table = r.table.write k t from rfl, Table.solution?_write_self ho] at h
    cases h
    exact .inl ⟨rfl, rfl⟩
  · exact .inr ((Table.solution?_write_of_ne _ hkm t).symm.trans h)

theorem Run.Tidy.solved (hr : r.Tidy) (ho : r.table.owns m) (hm : r.table.solution? m = none)
    (ht : t.Owned r.table) (hocc : m ∉ (r.table.expand t).mvars) : (r.solved m t).Tidy := by
  have howns := (r.extends_solved hm t).owns
  have hreach : ¬ r.table.Reaches t m := fun h => hocc (hr.acyclic.mem_mvars_expand.2 ⟨h, hm⟩)
  refine ⟨hr.count.trans (Table.size_write ..).symm, fun i k hk => ?_, fun k u hu => ?_,
    hr.acyclic.write ho hreach⟩
  · exact hr.ids i k ((Table.mvarAt?_write ..).symm.trans hk)
  · rcases Run.solution?_solved ho hu with ⟨-, rfl⟩ | hu
    · exact ht.mono howns fun _ h => h
    · exact (hr.solutions k u hu).mono howns fun _ h => h

/-- **Solving keeps a run valid** if the expansion of the solution fits and does not mention the
metavariable. -/
theorem Run.Valid.solved (hP : Ty.Stable P) (hr : r.Valid P) (ho : r.table.owns m)
    (hm : r.table.solution? m = none) (ht : t.Of P r) (hocc : m ∉ (r.table.expand t).mvars)
    (hfit : (r.table.expand t).Fits m.scope) : (r.solved m t).Valid P := by
  have hext := r.extends_solved hm t
  have htidy := hr.tidy.solved ho hm ht.isOver.owned hocc
  have hexp : ∀ u, (r.solved m t).table.expand u =
      (r.table.expand u).fill (Function.update .mvar m (r.table.expand t)) :=
    hr.acyclic.expand_write ho hm hocc
  refine ⟨htidy.count, htidy.ids, fun k hk => ?_, fun k u hu => ⟨?_, ?_⟩, htidy.acyclic,
    fun k u hu => ?_⟩
  · exact hr.scopes k ((Table.owns_write ..).symm.trans hk)
  · rcases Run.solution?_solved ho hu with ⟨rfl, rfl⟩ | hu
    · exact hext.isOver ht.isOver
    · exact hext.isOver (hr.solutions k u hu).isOver
  · rw [hexp]
    have hu' : P (r.table.expand u) := by
      rcases Run.solution?_solved ho hu with ⟨rfl, rfl⟩ | hu
      · exact ht.mem
      · exact (hr.solutions k u hu).mem
    refine hP.fill hu' fun j _ => ?_
    by_cases hj : j = m
    · subst hj
      simpa using ht.mem
    · simpa [Function.update_of_ne hj] using hP.mvar j
  · rw [hexp]
    rcases Run.solution?_solved ho hu with ⟨rfl, rfl⟩ | hu
    · rwa [Ty.fill_update_of_not_mem hocc]
    · -- If `m` occurs in the other solution, the two scopes are equal.
      have hk := hr.fits k u hu
      refine Ty.leaves_fill.2 ⟨fun j hj => ?_, hk.2⟩
      by_cases hjm : j = m
      · subst hjm
        rw [Function.update_self, ← hk.1 j hj]
        exact hfit
      · simpa [Function.update_of_ne hjm] using hk.1 j hj

end

/-! ## Pruning -/

theorem Run.Tidy.prune {r : Run} (hr : r.Tidy) (t : Ty) : (prune t r).2.Tidy := by
  obtain ⟨-, hsh, hframe⟩ := prune_spec hr.acyclic t
  refine ⟨?_, fun i m hm => ?_, fun m u hu => ?_, hsh.acyclic hr.acyclic⟩
  · rw [hsh.size, ← hr.count, hframe]
  · rw [hsh.mvarAt] at hm
    exact hr.ids i m hm
  · exact (hsh.leaves _ _ hr.solutions m u hu).mono (fun k hk => (hsh.owns k).2 hk) fun _ h => h

theorem Run.Valid.prune {r : Run} (hr : r.Valid P) (t : Ty) : (prune t r).2.Valid P := by
  have htidy := hr.tidy.prune t
  obtain ⟨-, hsh, hframe⟩ := prune_spec hr.acyclic t
  have hskolems : (RankN.prune t r).2.skolems = r.skolems := by rw [hframe]
  have hover : ∀ u : Ty, u.Over r → u.Over (RankN.prune t r).2 := fun u hu =>
    hu.mono (fun m hm => (hsh.owns m).2 hm) fun id hid => by
      unfold Run.Allocated at *
      rwa [hskolems]
  -- A solution may have changed, but not what it means.
  have hold : ∀ m u, (RankN.prune t r).2.table.solution? m = some u →
      ∃ v, r.table.solution? m = some v ∧ r.table.expand u = r.table.expand v := by
    intro m u hu
    cases hs : r.table.solution? m with
    | none =>
      rw [(hsh.unsolved m).2 hs] at hu
      cases hu
    | some v =>
      refine ⟨v, rfl, ?_⟩
      rw [← hsh.expand u, ← (hsh.acyclic hr.acyclic).expand_solved hu, hsh.expand,
        hr.acyclic.expand_solved hs]
  refine ⟨htidy.count, htidy.ids, fun m hm id hid => ?_, fun m u hu => ?_, htidy.acyclic,
    fun m u hu => ?_⟩
  · have := hr.scopes m ((hsh.owns m).1 hm) id hid
    unfold Run.Allocated at *
    rwa [hskolems]
  · obtain ⟨v, hv, hexp⟩ := hold m u hu
    refine ⟨hover u (hsh.leaves _ _ (fun k w hw => (hr.solutions k w hw).isOver) m u hu), ?_⟩
    rw [hsh.expand, hexp]
    exact (hr.solutions m v hv).mem
  · obtain ⟨v, hv, hexp⟩ := hold m u hu
    rw [hsh.expand, hexp]
    exact hr.fits m v hv

/-- Pruning returns a type of the run. -/
theorem Ty.Over.prune {r : Run} (hr : r.Valid P) {t : Ty} (ht : t.Over r) : (prune t r).1.Over r :=
  (leaves_prune hr.acyclic).2 <|
    hr.acyclic.leaves_expand_of (fun k u hk => (hr.solutions k u hk).isOver) ht

/-! ## Actions that keep runs valid -/

namespace Action

variable {ε α β : Type} {x : Action ε α} {f : α → Action ε β} {r r₁ : Run}
  {Q Q' : α → Run → Prop}

/-- However the action ends it leaves a valid run; if it succeeds, one that extends the first and
satisfies `Q` together with the answer. -/
def Keeps (P : Ty → Prop) (x : Action ε α) (r : Run) (Q : α → Run → Prop) : Prop :=
  x.Ensures r (fun a r' => r'.Valid P ∧ r.Extends r' ∧ Q a r') fun _ r' => r'.Valid P

theorem Keeps.of_ok {a : α} {r' : Run} (h : x.Keeps P r Q) (hx : x r = .ok a r') :
    r'.Valid P ∧ r.Extends r' ∧ Q a r' := Ensures.of_ok h hx

theorem Keeps.after (he : r.Extends r₁) (h : x.Keeps P r₁ Q) :
    x.Ensures r₁ (fun a r' => r'.Valid P ∧ r.Extends r' ∧ Q a r') fun _ r' => r'.Valid P :=
  h.mono (fun _ _ h => ⟨h.1, he.trans h.2.1, h.2.2⟩) fun _ _ h => h

theorem Keeps.mono (h : x.Keeps P r Q)
    (hQ : ∀ a r', r'.Valid P → r.Extends r' → Q a r' → Q' a r') : x.Keeps P r Q' :=
  Ensures.mono h (fun a r' h => ⟨h.1, h.2.1, hQ a r' h.1 h.2.1 h.2.2⟩) fun _ _ h => h

theorem Keeps.bind {Q' : β → Run → Prop} (hx : x.Keeps P r Q)
    (hf : ∀ a r', r'.Valid P → r.Extends r' → Q a r' → (f a).Keeps P r' Q') :
    (x >>= f).Keeps P r Q' :=
  ensures_bind.2 <|
    Ensures.mono hx (fun a r' h => (hf a r' h.1 h.2.1 h.2.2).after h.2.1) fun _ _ h => h

theorem Keeps.and (h : x.Keeps P r Q) (h' : x.Keeps P r Q') :
    x.Keeps P r fun a r' => Q a r' ∧ Q' a r' :=
  (Ensures.and h h').mono (fun _ _ h => ⟨h.1.1, h.1.2.1, h.1.2.2, h.2.2.2⟩) fun _ _ h => h.1

theorem keeps_pure {a : α} (hr : r.Valid P) (ha : Q a r) : (pure a : Action ε α).Keeps P r Q :=
  ensures_pure.2 ⟨hr, .refl r, ha⟩

theorem keeps_throw {stop : Stop ε} (hr : r.Valid P) : (throw stop : Action ε α).Keeps P r Q :=
  ensures_throw.2 hr

theorem keeps_get_bind {f : Run → Action ε α} (h : (f r).Keeps P r Q) :
    (get >>= f).Keeps P r Q := ensures_bind.2 (ensures_get.2 h)

theorem keeps_lift {x : StateM Run α} (hv : (x r).2.Valid P) (he : r.Extends (x r).2)
    (hq : Q (x r).1 (x r).2) : (liftM x : Action ε α).Keeps P r Q := ensures_lift.2 ⟨hv, he, hq⟩

theorem keeps_log (hr : r.Valid P) (e : Event) :
    (liftM (Run.log e) : Action ε Unit).Keeps P r fun _ r' => r.Agrees r' :=
  keeps_lift ((r.agrees_log e).valid hr) (r.agrees_log e).extends_ (r.agrees_log e)

theorem keeps_newSkolem (hr : r.Valid P) :
    (liftM Run.newSkolem : Action ε Int).Keeps P r fun c r' =>
      c = r.skolems ∧ r'.Allocated c ∧ r'.table = r.table := by
  refine keeps_lift hr.newSkolem r.extends_newSkolem ⟨rfl, ?_, rfl⟩
  simp only [Run.Allocated, Run.newSkolem]
  omega

theorem keeps_newMVar (hr : r.Valid P) {scope : Scope} (hs : ∀ id ∈ scope, r.Allocated id) :
    (liftM (Run.newMVar scope) : Action ε MVar).Keeps P r fun m r' => r.Adds scope m r' :=
  keeps_lift (hr.newMVar hs) (r.extends_newMVar scope) (hr.adds_newMVar scope)

/-- Opening a quantifier returns a type of the run. -/
theorem keeps_openAll (hr : r.Valid P) (y : String) {body new : Ty} (hbody : body.Over r)
    (hnew : new.Over r) (hP : P ((r.table.expand body).replace y (r.table.expand new))) :
    (liftM (openAll y body new) : Action ε Ty).Keeps P r fun t r' =>
      t.Of P r' ∧ r.Agrees r' ∧ r'.table.expand t =
        (r.table.expand body).replace y (r.table.expand new) := by
  have ha := (subst_restamped y new body r).agrees
  have hexp := expand_subst hr.acyclic y new body
  refine keeps_lift (ha.valid hr) ha.extends_ ⟨ha.of ⟨?_, ?_⟩, ha, ?_⟩
  · exact leaves_subst (fun m t ht => (hr.solutions m t ht).isOver) hnew hbody
  · exact hexp ▸ hP
  · rw [show (openAll y body new r).2.table = r.table from ha.table]
    exact hexp

theorem keeps_newArrow (hr : r.Valid P) (p q : Ty) :
    (liftM (Run.newArrow p q) : Action ε Ty).Keeps P r fun t r' =>
      (∃ n, t = .arrow n p q) ∧ r.Agrees r' :=
  have ha : r.Agrees (Run.newArrow p q r).2 := ⟨rfl, rfl, rfl⟩
  keeps_lift (ha.valid hr) ha.extends_ ⟨⟨_, rfl⟩, ha⟩

end Action

/-- The action touches no table, or runs out of steps. -/
def Action.Idles (x : Solve Unit) (r : Run) : Prop :=
  x.Ensures r (fun _ r' => r.Idles r') fun stop _ => stop = .fault .cyclic

theorem Action.Idles.after {x : Solve Unit} {r r' : Run} (h : Action.Idles x r') (hr : r.Idles r') :
    x.Ensures r' (fun _ r'' => r.Idles r'') fun stop _ => stop = .fault .cyclic :=
  h.mono (fun _ _ h => hr.trans h) fun _ _ h => h

end RankN
