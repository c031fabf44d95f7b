import RankN.Proofs.Matching

/-!
# Subsumption is the instance relation

A type `a` has `b` as an *instance* if types can be put for the outermost quantified variables of
`a` that make it equal to `b`, where the outermost quantified variables of `b` stand for constants
that occur nowhere else. The types put in may be quantified themselves.

**Soundness and completeness** (`subsume_iff_hasInstance`). On types as they are written, without
metavariables and skolem constants, subsumption succeeds exactly for instances. It opens `b` first,
at new constants (`subsumeWithin_exact`); then `a`, at metavariables whose scope has all these
constants (`subsumeWithin_left_exact`); then it matches one with the other (`unify_finds`).

**Order** (`Run.hasInstance_iff_instance`). Being an instance does not depend on the run and on the
scope it is asked in: the constants may be replaced by any types. Therefore it is reflexive and
transitive.

Main result: `Reachable.subsume_is_instance`.
-/

namespace RankN

open RankN.Action

/-! ## Quantified types at types -/

namespace Nameless

/-- The type with `us` put for its outermost quantified variables. -/
def applied : Nameless → List Nameless → Nameless
  | A, [] => A
  | .all A, u :: us => (A.instantiate 0 u).applied us
  | A, _ :: _ => A

/-- The number of outermost quantifiers. -/
def quantifiers : Nameless → Nat
  | .all A => A.quantifiers + 1
  | _ => 0

/-- The next `k` skolem constants from `c` on. -/
def constants (c : Nat) : Nat → List Nameless
  | 0 => []
  | k + 1 => .const (.skolem c) :: constants (c + 1) k

/-- A closed type that mentions names, and skolem constants of `S`. -/
def Within (S : Int → Prop) (A : Nameless) : Prop :=
  A.Closed ∧ ∀ c ∈ A.atoms, (∃ x, c = .name x) ∨ ∃ id, S id ∧ c = .skolem id

variable {A : Nameless} {S : Int → Prop} {us : List Nameless} {f : Atom → Nameless} {c k : Nat}

@[simp] theorem applied_nil (A : Nameless) : A.applied [] = A := by cases A <;> rfl

@[simp]
theorem applied_all (A u : Nameless) (us : List Nameless) :
    (Nameless.all A).applied (u :: us) = (A.instantiate 0 u).applied us := rfl

theorem Within.skolem (h : A.Within S) {id : Int} (hid : Atom.skolem id ∈ A.atoms) : S id := by
  rcases h.2 _ hid with ⟨x, hx⟩ | ⟨id', hid', heq⟩
  · cases hx
  · cases heq
    exact hid'

theorem quantifiers_le_instantiate (A : Nameless) (k : Nat) (u : Nameless) :
    A.quantifiers ≤ (A.instantiate k u).quantifiers := by
  induction A generalizing k with
  | all body ih => exact Nat.succ_le_succ (ih (k + 1))
  | _ => exact Nat.zero_le _

@[simp]
theorem length_constants (c k : Nat) : (constants c k).length = k := by
  induction k generalizing c with
  | zero => rfl
  | succ k ih => simp [constants, ih]

theorem mem_constants {u : Nameless} :
    u ∈ constants c k ↔ ∃ id : Int, c ≤ id ∧ id < c + k ∧ u = .const (.skolem id) := by
  induction k generalizing c with
  | zero =>
    simp only [constants, List.not_mem_nil, false_iff]
    rintro ⟨id, h, h', -⟩
    omega
  | succ k ih =>
    simp only [constants, List.mem_cons, ih]
    constructor
    · rintro (rfl | ⟨id, h, h', rfl⟩)
      · exact ⟨c, le_rfl, by omega, rfl⟩
      · exact ⟨id, by omega, by omega, rfl⟩
    · rintro ⟨id, h, h', rfl⟩
      by_cases hid : id = c
      · exact .inl (by rw [hid])
      · exact .inr ⟨id, by omega, by omega, rfl⟩

/-- Types put for constants may be put in before or after quantified variables are replaced. -/
theorem bind_applied (hf : ∀ c, (f c).Closed) (h : us.length ≤ A.quantifiers) :
    (A.applied us).bind f = (A.bind f).applied (us.map (·.bind f)) := by
  induction us generalizing A with
  | nil => simp
  | cons u us ih =>
    cases A with
    | all body =>
      have hlen : us.length ≤ (body.instantiate 0 u).quantifiers :=
        (Nat.le_of_succ_le_succ h).trans (quantifiers_le_instantiate body 0 u)
      rw [applied_all, ih hlen, bind_instantiate hf]
      rfl
    | _ => exact absurd h (by simp [quantifiers])

theorem closedAt_bind (hf : ∀ c, (f c).Closed) (h : A.ClosedAt k) : (A.bind f).ClosedAt k := by
  induction A generalizing k with
  | bound i => exact h
  | const c => exact (hf c).at k
  | all body ih => exact ih h
  | arrow p q ihp ihq => exact ⟨ihp h.1, ihq h.2⟩
  | app g a ihg iha => exact ⟨ihg h.1, iha h.2⟩

theorem bind_eq_self (h : ∀ c ∈ A.atoms, f c = .const c) : A.bind f = A := by
  induction A with
  | bound i => rfl
  | const c => exact h c (by simp)
  | all body ih => simp [ih h]
  | arrow p q ihp ihq =>
    simp only [atoms, List.forall_mem_append] at h
    simp [ihp h.1, ihq h.2]
  | app g a ihg iha =>
    simp only [atoms, List.forall_mem_append] at h
    simp [ihg h.1, iha h.2]

/-- Putting types for constants that follow each other. -/
theorem map_bind_constants (h : us.length = k)
    (hf : ∀ i (hi : i < us.length), f (.skolem (c + i)) = us.get ⟨i, hi⟩) :
    (constants c k).map (·.bind f) = us := by
  induction us generalizing c k with
  | nil =>
    subst h
    rfl
  | cons u us ih =>
    subst h
    have h₀ := hf 0 (by simp)
    have hrest : (constants (c + 1) us.length).map (·.bind f) = us := by
      refine ih rfl fun i hi => ?_
      have := hf (i + 1) (by simpa using hi)
      simpa [add_assoc, add_comm, add_left_comm] using this
    simpa [constants, hrest] using h₀

/-- Put `us` for the skolem constants from `c` on. -/
def atConstants (c : Nat) (us : List Nameless) : Atom → Nameless
  | .skolem id =>
    if c ≤ id then us.getD (id - c).toNat (.const (.skolem id)) else .const (.skolem id)
  | d => .const d

theorem closed_atConstants (c : Nat) (h : ∀ u ∈ us, u.Closed) (d : Atom) :
    (atConstants c us d).Closed := by
  cases d with
  | skolem id =>
    rw [atConstants, List.getD_eq_getElem?_getD]
    cases hget : us[(id - c).toNat]? with
    | none => split <;> trivial
    | some u =>
      split
      · exact h u (List.mem_of_getElem? hget)
      · trivial
  | _ => trivial

theorem atConstants_of_lt {i : Nat} (hi : i < us.length) :
    atConstants c us (.skolem (c + i)) = us.get ⟨i, hi⟩ := by
  have hle : (c : Int) ≤ c + i := by omega
  simp [atConstants, hle, hi]

/-- Keep names and the skolem constants of `S`, and put a name for all other constants. -/
def forget (S : Int → Prop) [DecidablePred S] : Atom → Nameless
  | .name x => .const (.name x)
  | .skolem id => if S id then .const (.skolem id) else .const (.name "")
  | _ => .const (.name "")

theorem forget_skolem [DecidablePred S] {id : Int} (h : S id) :
    forget S (.skolem id) = .const (.skolem id) := if_pos h

theorem closed_forget (S : Int → Prop) [DecidablePred S] (c : Atom) : (forget S c).Closed := by
  unfold forget
  split
  · trivial
  · split <;> trivial
  · trivial

theorem within_forget [DecidablePred S] (h : A.Closed) : (A.bind (forget S)).Within S := by
  refine ⟨closedAt_bind (closed_forget S) h, fun d hd => ?_⟩
  obtain ⟨c, -, hc⟩ := mem_atoms_bind.1 hd
  unfold forget at hc
  split at hc
  · exact .inl ⟨_, List.mem_singleton.1 hc⟩
  · split at hc
    · exact .inr ⟨_, ‹_›, List.mem_singleton.1 hc⟩
    · exact .inl ⟨_, List.mem_singleton.1 hc⟩
  · exact .inl ⟨_, List.mem_singleton.1 hc⟩

end Nameless

/-! ## Written types -/

namespace Ty

/-- The number of outermost quantifiers. -/
def quantifiers : Ty → Nat
  | .all _ _ body => body.quantifiers + 1
  | _ => 0

/-- A type as it is written: names, quantifiers, arrows and applications. -/
def Written (t : Ty) : Prop := t.Ground ∧ t.Whole

instance (t : Ty) : Decidable t.Written := inferInstanceAs (Decidable (_ ∧ _))

variable {t new : Ty} {x : String} {n : Nat} {θ : MVar → Nameless} {ctx : List String}

@[simp]
theorem quantifiers_plain (t : Ty) : t.plain.quantifiers = t.quantifiers := by
  induction t with
  | all n x body ih => simp [plain, quantifiers, ih]
  | _ => rfl

theorem quantifiers_replace (h : new.quantifiers = 0) (t : Ty) (x : String) :
    (t.replace x new).quantifiers = t.quantifiers := by
  induction t with
  | var y => by_cases hy : y = x <;> simp [hy, h, quantifiers]
  | all n y body ih => by_cases hy : y = x <;> simp [hy, quantifiers, ih]
  | _ => rfl

/-- Opening one quantifier leaves the others. -/
theorem quantifiers_openAll {r : Run} (hnew : new.quantifiers = 0)
    (h : ∀ m ∈ t.mvars, r.table.solution? m = none) :
    (openAll x t new r).1.quantifiers = t.quantifiers := by
  have hplain : (openAll x t new r).1.plain = t.plain.replace x new.plain := plain_subst h
  rw [← quantifiers_plain, hplain, quantifiers_replace (by simpa using hnew), quantifiers_plain]

theorem quantifiers_le_read (t : Ty) (ctx : List String) :
    t.quantifiers ≤ (t.read θ ctx).quantifiers := by
  induction t generalizing ctx with
  | all n x body ih => exact Nat.succ_le_succ (ih (x :: ctx))
  | _ => exact Nat.zero_le _

/-- The constants of a rigid type are names and skolem constants. -/
theorem Rigid.atoms (h : t.Rigid n) {c : Atom} (hc : c ∈ (t.read θ ctx).atoms) :
    (∃ x, c = .name x) ∨ ∃ id ∈ t.skolems, c = .skolem id := by
  induction t generalizing ctx with
  | var y =>
    by_cases hy : y ∈ ctx
    · simp [hy] at hc
    · exact .inl ⟨y, by simpa [hy] using hc⟩
  | all k y body ih => exact ih (rigid_all.1 h) hc
  | arrow k p q ihp ihq =>
    rw [rigid_arrow] at h
    rcases List.mem_append.1 hc with hc | hc
    · exact (ihp h.1 hc).imp_right fun ⟨id, hid, heq⟩ => ⟨id, by simp [hid], heq⟩
    · exact (ihq h.2 hc).imp_right fun ⟨id, hid, heq⟩ => ⟨id, by simp [hid], heq⟩
  | app k f a ihf iha =>
    rw [rigid_app] at h
    rcases List.mem_append.1 hc with hc | hc
    · exact (ihf h.1 hc).imp_right fun ⟨id, hid, heq⟩ => ⟨id, by simp [hid], heq⟩
    · exact (iha h.2 hc).imp_right fun ⟨id, hid, heq⟩ => ⟨id, by simp [hid], heq⟩
  | skolem id => exact .inr ⟨id, by simp, by simpa using hc⟩
  | mvar m => exact (h.2.1 m (by simp)).elim
  | unknown | absent => exact h.1.elim

namespace Written

theorem rigid (h : t.Written) (n : Nat) : t.Rigid n :=
  ⟨h.2, h.1.mono (fun _ hm => hm) fun _ hid => hid.elim⟩

theorem target (h : t.Written) {B : String → Prop} (hB : t.plain.Named B []) (n : Nat) :
    t.Target B n := ⟨h.rigid n, fun id hid => (h.1.2 id hid).elim, hB⟩

/-- A written type mentions names only, so nothing is put for its constants. -/
theorem bind_nameless (h : t.Written) {f : Atom → Nameless}
    (hf : ∀ x, f (.name x) = .const (.name x)) : t.nameless.bind f = t.nameless := by
  apply Nameless.bind_eq_self
  intro c hc
  rcases (h.rigid 0).atoms hc with ⟨x, rfl⟩ | ⟨id, hid, -⟩
  · exact hf x
  · exact (h.1.2 id hid).elim

end Written

end Ty

/-! ## Opening the given type -/

section

variable {B : String → Prop} {X : MVar → Prop} {scope : Scope} {r : Run} {a b t : Ty}

/-- The assignment that gives every metavariable a name. -/
def Assignment.named : Assignment where
  type _ := .const (.name "")
  closed _ := trivial
  inScope m id h := by simp at h

/-- The assignment with another meaning for one metavariable. -/
def Assignment.update (θ : Assignment) (m : MVar) {u : Nameless} (hu : u.Within (· ∈ m.scope)) :
    Assignment where
  type := Function.update θ.type m u
  closed k := by
    by_cases hk : k = m
    · subst hk
      simpa using hu.1
    · simpa [Function.update_of_ne hk] using θ.closed k
  inScope k id h := by
    by_cases hk : k = m
    · subst hk
      exact hu.skolem (by simpa using h)
    · exact θ.inScope k id (by simpa [Function.update_of_ne hk] using h)

theorem Assignment.update_self (θ : Assignment) {m : MVar} {u : Nameless}
    (hu : u.Within (· ∈ m.scope)) : (θ.update m hu).type m = u := by simp [update]

theorem Assignment.update_of_ne (θ : Assignment) {m k : MVar} {u : Nameless}
    (hu : u.Within (· ∈ m.scope)) (hk : k ≠ m) : (θ.update m hu).type k = θ.type k := by
  simp [update, hk]

/-- What a run has found for the metavariables in `X`. -/
theorem Run.Matched.exists_modelsOn (h : r.Matched B X) :
    ∃ θ : Assignment, θ.ModelsOn X r.table ∧ ∀ m, X m → (θ.type m).Within (· ∈ m.scope) := by
  have hmodels : (Assignment.named.through h.valid).ModelsOn X r.table := by
    intro m t hm hs
    show Assignment.named.read (r.table.expand (.mvar m)) = t.nameless
    rw [h.valid.acyclic.expand_solved hs, (h.solutions m t hm hs).rigid.read_expand]
  refine ⟨_, hmodels, fun m hm => ⟨Assignment.closed _ m, fun c hc => ?_⟩⟩
  have hscope := (Assignment.named.through h.valid).inScope m
  cases hs : r.table.solution? m with
  | none =>
    rw [Assignment.through_unsolved h.valid hs] at hc
    exact .inl ⟨"", by simpa [Assignment.named] using hc⟩
  | some t =>
    have htype := hmodels m t hm hs
    rw [htype] at hc hscope
    rcases (h.solutions m t hm hs).rigid.atoms hc with hname | ⟨id, -, rfl⟩
    · exact .inl hname
    · exact .inr ⟨id, hscope id hc, rfl⟩

/-- The metavariables in `X` are there to be solved, by types over the scope. -/
def Run.Awaits (X : MVar → Prop) (scope : Scope) (r : Run) : Prop :=
  ∀ m, X m → r.table.owns m ∧ r.table.solution? m = none ∧ m.scope = scope

/-- A type in which metavariables of `X` have been put for quantified variables, and nothing else
has happened. -/
structure Ty.Opened (B : String → Prop) (X : MVar → Prop) (t : Ty) : Prop where
  complete : t.Complete
  leaves : t.Leaves X fun _ => False
  named : t.plain.Named B []

theorem Run.Awaits.agrees {r' : Run} (h : r.Awaits X scope) (ha : r.Agrees r') :
    r'.Awaits X scope := by
  intro m hm
  rw [ha.table]
  exact h m hm

/-- A new metavariable is one more to be solved. -/
theorem Run.Awaits.adds {r' : Run} {m : MVar} (h : r.Awaits X scope) (hm : r.Adds scope m r') :
    r'.Awaits (fun k => k = m ∨ X k) scope := by
  intro k hk
  rcases hk with rfl | hk
  · exact ⟨hm.owned, hm.unsolved, hm.scope⟩
  · obtain ⟨howns, hsol, hscope⟩ := h k hk
    exact ⟨(hm.owns k).2 (.inr howns), (hm.solution k).trans hsol, hscope⟩

theorem Run.Awaits.matched (h : r.Awaits X scope) (hr : r.Valid Ty.Any) : r.Matched B X where
  valid := hr
  owned m hm := (h m hm).1
  solutions m t hm hs := by
    rw [(h m hm).2.1] at hs
    cases hs

namespace Ty.Opened

variable {x : String} {m : MVar}

theorem unsolved (h : t.Opened B X) (hX : r.Awaits X scope) :
    ∀ k ∈ t.mvars, r.table.solution? k = none := fun k hk => (hX k (h.leaves.1 k hk)).2.1

theorem isOver (h : t.Opened B X) (hX : r.Awaits X scope) : t.Over r :=
  h.leaves.mono (fun k hk => (hX k hk).1) fun _ hid => hid.elim

theorem pattern (h : t.Opened B X) (hX : r.Awaits X scope) : t.Pattern B X r := by
  have hexp := Table.expand_of_unsolved (h.unsolved hX)
  refine ⟨h.isOver hX, ⟨?_, ?_⟩, ?_⟩
  · rw [hexp]
    exact built_plain.2 h.complete
  · rw [hexp, leaves_plain]
    exact ⟨h.leaves.1, fun _ _ => trivial⟩
  · rw [hexp]
    exact h.named

/-- One more quantifier is opened. -/
theorem openAll {k : Nat} (h : (Ty.all k x t).Opened B X)
    (hunsolved : ∀ j ∈ t.mvars, r.table.solution? j = none) :
    (openAll x t (.mvar m) r).1.Opened B fun j => j = m ∨ X j := by
  have hplain : (RankN.openAll x t (.mvar m) r).1.plain = t.plain.replace x (.mvar m) :=
    plain_subst hunsolved
  have hcomplete : t.plain.Complete := built_plain.2 h.complete
  have hleaves : t.plain.Leaves (fun j => j = m ∨ X j) fun _ => False :=
    leaves_plain.2 (h.leaves.mono (fun j hj => .inr hj) fun _ hid => hid)
  refine ⟨?_, ?_, ?_⟩
  · refine built_plain.1 ?_
    rw [hplain]
    exact hcomplete.replace x trivial
  · rw [← leaves_plain, hplain]
    exact leaves_replace hleaves (leaves_mvar.2 (.inl rfl))
  · rw [hplain]
    exact (stable_named B).atMVar h.named m

end Ty.Opened

/-- Opening a quantifier at a metavariable puts the meaning of the metavariable in. -/
theorem Assignment.read_openAll {x : String} {m : MVar} (θ : Assignment)
    (h : ∀ j ∈ t.mvars, r.table.solution? j = none) :
    θ.read (openAll x t (.mvar m) r).1 = (t.read θ.type [x]).instantiate 0 (θ.type m) := by
  have hplain : (openAll x t (.mvar m) r).1.plain = t.plain.replace x (.mvar m) := plain_subst h
  calc θ.read (openAll x t (.mvar m) r).1
      = (openAll x t (.mvar m) r).1.plain.read θ.type [] := (Ty.read_plain _ [] _).symm
    _ = (t.plain.read θ.type [x]).instantiate 0 (θ.type m) := by
      rw [hplain]
      exact Ty.read_replace θ.closed (fun _ => rfl) List.not_mem_nil _
    _ = (t.read θ.type [x]).instantiate 0 (θ.type m) := by rw [Ty.read_plain]

/-- Types over the scope, one for each outermost quantifier of `a`, make it equal to `A`, when its
metavariables mean what `θ` says. -/
def Assignment.Instantiates (θ : Assignment) (scope : Scope) (a : Ty) (A : Nameless) : Prop :=
  ∃ us : List Nameless, us.length = a.quantifiers ∧ (∀ u ∈ us, u.Within (· ∈ scope)) ∧
    (θ.read a).applied us = A

/-- What a new metavariable means may be put for the first quantified variable. -/
theorem Assignment.Instantiates.of_openAll {k : Nat} {x : String} {m : MVar} {A : Nameless}
    {θ : Assignment} (h : θ.Instantiates scope (openAll x t (.mvar m) r).1 A)
    (hunsolved : ∀ j ∈ t.mvars, r.table.solution? j = none)
    (hm : (θ.type m).Within (· ∈ scope)) : θ.Instantiates scope (.all k x t) A := by
  obtain ⟨us, hlen, hus, heq⟩ := h
  rw [Ty.quantifiers_openAll rfl hunsolved] at hlen
  rw [θ.read_openAll hunsolved] at heq
  exact ⟨θ.type m :: us, congrArg Nat.succ hlen, List.forall_mem_cons.2 ⟨hm, hus⟩, heq⟩

/-- What is put for the first quantified variable may be the meaning of a new metavariable. -/
theorem Assignment.Instantiates.openAll {k : Nat} {x : String} {m : MVar} {A : Nameless}
    {θ : Assignment} (h : θ.Instantiates scope (.all k x t) A)
    (hunsolved : ∀ j ∈ t.mvars, r.table.solution? j = none) (hm : m.scope = scope)
    (hfresh : m ∉ t.mvars) :
    ∃ θ' : Assignment, θ'.Instantiates scope (openAll x t (.mvar m) r).1 A := by
  obtain ⟨us, hlen, hus, heq⟩ := h
  subst hm
  cases us with
  | nil => cases hlen
  | cons u us =>
    obtain ⟨hu, hus⟩ := List.forall_mem_cons.1 hus
    refine ⟨θ.update m hu, us, ?_, hus, ?_⟩
    · rw [Ty.quantifiers_openAll rfl hunsolved]
      exact Nat.succ.inj hlen
    · have hread : t.read (θ.update m hu).type [x] = t.read θ.type [x] := by
        refine Ty.read_congr fun j hj => ?_
        have hj' : j ≠ m := by
          rintro rfl
          exact hfresh hj
        exact θ.update_of_ne hu hj'
      rw [(θ.update m hu).read_openAll hunsolved, hread, θ.update_self]
      exact heq

/-- Where no quantifier is left, there is nothing to put in. -/
theorem Assignment.instantiates_iff {θ : Assignment} {A : Nameless}
    (h : ∀ k x t, a ≠ .all k x t) : θ.Instantiates scope a A ↔ θ.read a = A := by
  have hzero : a.quantifiers = 0 := by
    cases a with
    | all k x t => exact absurd rfl (h k x t)
    | _ => rfl
  constructor
  · rintro ⟨us, hlen, -, heq⟩
    rw [hzero, List.length_eq_zero_iff] at hlen
    simpa [hlen] using heq
  · intro heq
    exact ⟨[], by simp [hzero], by simp, by simpa using heq⟩

/-- **Opening the quantifiers of `a` at metavariables and matching it finds the types to be put
in**, or there are none. -/
theorem subsumeWithin_left_exact (n : Nat) (hr : r.Valid Ty.Any) (hX : r.Awaits X scope)
    (hs : scope.Over r) (ha : a.Opened B X) (hb : b.Target B r.skolems)
    (hnot : ∀ k x t, b ≠ .all k x t) :
    (subsumeWithin n scope a b).Ensures r
      (fun _ _ => ∃ θ : Assignment, (∀ m, X m → (θ.type m).Within (· ∈ scope)) ∧
        θ.Instantiates scope a b.nameless)
      fun stop _ => stop.inTime → ∀ θ : Assignment, ¬ θ.Instantiates scope a b.nameless := by
  induction n generalizing a r X with
  | zero =>
    rw [subsumeWithin]
    exact fun h => absurd rfl h
  | succ n ih =>
    have hlog := r.agrees_log (.subsume a b)
    have hr₁ := hlog.valid hr
    have hX₁ := hX.agrees hlog
    have hs₁ := hs.mono hlog.extends_
    refine ensures_subsumeWithin (fun k x t h => absurd h (hnot k x t)) ?_ fun _ hna => ?_
    · rintro k x t rfl
      simp only [ensures_bind, ensures_lift]
      have hadds := hr₁.adds_newMVar scope
      have hr₂ := hr₁.newMVar hs₁
      have he₂ := Run.extends_newMVar (Run.log (.subsume (.all k x t) b) r).2 scope
      have hX₂ := hX₁.adds hadds
      generalize (Run.newMVar scope (Run.log (.subsume (.all k x t) b) r).2) = o at *
      have hunsolved : ∀ j ∈ t.mvars, o.2.table.solution? j = none := fun j hj => by
        rw [hadds.solution]
        exact ha.unsolved hX₁ j hj
      have hfresh : o.1 ∉ t.mvars := fun hj => hadds.fresh ((ha.isOver hX₁).1 o.1 hj)
      have hagree : o.2.Agrees (openAll x t (.mvar o.1) o.2).2 := (subst_restamped ..).agrees
      have hskolems := ((hlog.extends_.trans he₂).trans hagree.extends_).skolems
      refine (ih (hagree.valid hr₂) (hX₂.agrees hagree) ((hs₁.mono he₂).mono hagree.extends_)
        (ha.openAll hunsolved) (hb.mono hskolems)).mono ?_ ?_
      · rintro _ _ ⟨θ, hθ, h⟩
        exact ⟨θ, fun j hj => hθ j (.inr hj), h.of_openAll hunsolved (hθ o.1 (.inl rfl))⟩
      · intro stop _ h hstop θ hθ
        obtain ⟨θ', hθ'⟩ := hθ.openAll hunsolved hadds.scope hfresh
        exact h hstop θ' hθ'
    · have hexp : ∀ θ : Assignment,
          θ.read ((Run.log (.subsume a b) r).2.table.expand a) = θ.read a := fun θ => by
        rw [Table.expand_of_unsolved (ha.unsolved hX₁)]
        exact Ty.read_plain _ [] a
      refine (unify_finds (hX₁.matched hr₁) (ha.pattern hX₁)
        (hb.mono hlog.skolems.ge)).mono ?_ ?_
      · rintro _ r' ⟨hr', hiff⟩
        obtain ⟨θ, hθ, hwithin⟩ := hr'.exists_modelsOn
        refine ⟨θ, fun m hm => (hX m hm).2.2 ▸ hwithin m hm, ?_⟩
        rw [Assignment.instantiates_iff hna, ← hexp θ]
        exact ((hiff θ).1 hθ).2
      · intro stop _ h _ θ hθ
        rw [Assignment.instantiates_iff hna, ← hexp θ] at hθ
        refine h θ (fun m t hm hs => ?_) hθ
        rw [(hX₁ m hm).2.1] at hs
        cases hs

end

/-! ## Opening the expected type -/

/-- Types over the scope and the next constants, put for the outermost quantified variables of `a`,
make it equal to `b` with these constants for its own. -/
def Run.HasInstance (r : Run) (scope : Scope) (a b : Ty) : Prop :=
  ∃ us : List Nameless, us.length = a.quantifiers ∧
    (∀ u ∈ us, u.Within fun id => id ∈ scope ∨ r.skolems ≤ id ∧ id < r.skolems + b.quantifiers) ∧
    a.nameless.applied us = b.nameless.applied (Nameless.constants r.skolems b.quantifiers)

section

variable {B : String → Prop} {scope : Scope} {r r' : Run} {a b t : Ty}

/-- Of the run, only the next constant counts. -/
theorem Run.hasInstance_congr (h : r'.skolems = r.skolems) :
    r'.HasInstance scope a b ↔ r.HasInstance scope a b := by
  rw [Run.HasInstance, h, Run.HasInstance]

/-- An instance of a quantified type is one of its body at the next constant. -/
theorem Run.hasInstance_openAll {k : Nat} {x : String} (ht : t.Rigid r.skolems)
    (hskolems : r'.skolems = r.skolems + 1) {r₁ : Run} :
    r'.HasInstance (scope.insert r.skolems) a (openAll x t (.skolem r.skolems) r₁).1 ↔
      r.HasInstance scope a (.all k x t) := by
  have hquant : (openAll x t (.skolem r.skolems) r₁).1.quantifiers = t.quantifiers :=
    Ty.quantifiers_openAll rfl ht.mvars
  have hscope : (fun id : Int => id ∈ scope.insert r.skolems ∨
      r'.skolems ≤ id ∧ id < r'.skolems + t.quantifiers) =
      fun id => id ∈ scope ∨
        r.skolems ≤ id ∧ id < r.skolems + (Ty.all k x t).quantifiers := by
    funext id
    rw [hskolems, Scope.mem_insert, Ty.quantifiers]
    by_cases hid : id ∈ scope
    · simp [hid]
    · simp only [hid, or_false, false_or, eq_iff_iff]
      omega
  unfold Run.HasInstance
  rw [hquant, hscope, ht.nameless_openAll, hskolems]
  rfl

/-- An instance of a type that is not quantified needs no new constants. -/
theorem Run.hasInstance_iff (ha : a.Written) (hb : ∀ k x t, b ≠ .all k x t) :
    r.HasInstance scope a b ↔ ∃ θ : Assignment, θ.Instantiates scope a b.nameless := by
  have hzero : b.quantifiers = 0 := by
    cases b with
    | all k x t => exact absurd rfl (hb k x t)
    | _ => rfl
  have hscope : (fun id : Int => id ∈ scope ∨ r.skolems ≤ id ∧ id < r.skolems + b.quantifiers) =
      (· ∈ scope) := by
    funext id
    rw [hzero]
    by_cases hid : id ∈ scope
    · simp [hid]
    · simp only [hid, false_or, eq_iff_iff, iff_false]
      omega
  unfold Run.HasInstance Assignment.Instantiates
  rw [hscope, hzero]
  simp only [ha.1.read, Nameless.constants, Nameless.applied_nil]
  exact ⟨fun h => ⟨.named, h⟩, fun ⟨_, h⟩ => h⟩

/-- **Opening the quantifiers of `b` at constants, and then those of `a`, finds out whether `b` is
an instance.** -/
theorem subsumeWithin_exact (n : Nat) (hr : r.Valid Ty.Any) (hs : scope.Over r) (ha : a.Written)
    (hnamed : a.plain.Named B []) (hb : b.Target B r.skolems) :
    (subsumeWithin n scope a b).Ensures r (fun _ _ => r.HasInstance scope a b)
      fun stop _ => stop.inTime → ¬ r.HasInstance scope a b := by
  induction n generalizing b r scope with
  | zero =>
    rw [subsumeWithin]
    exact fun h => absurd rfl h
  | succ n ih =>
    by_cases hall : ∃ k x t, b = .all k x t
    · obtain ⟨k, x, t, rfl⟩ := hall
      rw [subsumeWithin_right]
      simp only [ensures_bind, ensures_lift]
      have hlog := r.agrees_log (.subsume a (.all k x t))
      generalize (Run.log (.subsume a (.all k x t)) r).2 = r₁ at *
      obtain ⟨hr₂, he₂, -, hc, -⟩ :=
        ensures_lift.1 (keeps_newSkolem (ε := TypeError) (hlog.valid hr))
      rw [← hlog.skolems] at hb
      have hagree : (Run.newSkolem r₁).2.Agrees
          (openAll x t (.skolem (Run.newSkolem r₁).1) (Run.newSkolem r₁).2).2 :=
        (subst_restamped ..).agrees
      have hs₂ := ((hs.mono (hlog.extends_.trans he₂)).insert hc).mono hagree.extends_
      have hb₂ := hb.openAll (Run.newSkolem r₁).2
      rw [show r₁.skolems + 1 = (openAll x t (.skolem (Run.newSkolem r₁).1)
        (Run.newSkolem r₁).2).2.skolems from hagree.skolems.symm] at hb₂
      have hiff : (openAll x t (.skolem r₁.skolems) (Run.newSkolem r₁).2).2.HasInstance
          (scope.insert r₁.skolems) a (openAll x t (.skolem r₁.skolems) (Run.newSkolem r₁).2).1 ↔
          r.HasInstance scope a (.all k x t) :=
        (Run.hasInstance_openAll (Ty.rigid_all.1 hb.rigid) hagree.skolems).trans
          (Run.hasInstance_congr hlog.skolems)
      exact (ih (hagree.valid hr₂) hs₂ hb₂).mono (fun _ _ h => hiff.1 h)
        fun stop _ h hstop hinst => h hstop (hiff.2 hinst)
    · push Not at hall
      refine (subsumeWithin_left_exact (X := fun _ => False) (n + 1) hr (fun _ h => h.elim) hs
        ⟨ha.2.complete, ha.1, hnamed⟩ hb hall).mono ?_ ?_
      · rintro _ _ ⟨θ, -, h⟩
        exact (Run.hasInstance_iff ha hall).2 ⟨θ, h⟩
      · intro stop _ h hstop hinst
        obtain ⟨θ, hθ⟩ := (Run.hasInstance_iff ha hall).1 hinst
        exact h hstop θ hθ

/-- **On written types subsumption succeeds exactly for instances.** -/
theorem subsume_iff_hasInstance (hr : r.Valid Ty.Any) (hs : scope.Over r) (ha : a.Written)
    (hb : b.Written) (hnames : Apart [a, b]) :
    (∃ r', subsume scope a b r = .ok () r') ↔ r.HasInstance scope a b := by
  have hexact : (subsume scope a b).Ensures r (fun _ _ => r.HasInstance scope a b)
      fun stop _ => stop.inTime → ¬ r.HasInstance scope a b :=
    ensures_bind.2 <| ensures_get.2 <| subsumeWithin_exact _ hr hs ha (hnames.named (by simp))
      (hb.target (hnames.named (by simp)) _)
  cases hx : subsume scope a b r with
  | ok _ r' => simp [hexact.of_ok hx]
  | error stop r' =>
    have hstop := Ensures.of_error (subsume_finishes hr.inOrder a b) hx
    simp [hexact.of_error hx hstop]

end

/-! ## Order -/

/-- Whatever closed types are put for the outermost quantified variables of `b`, some can be put for
those of `a` that make both equal. -/
def Ty.Instance (a b : Ty) : Prop :=
  ∀ us : List Nameless, us.length = b.quantifiers → (∀ u ∈ us, u.Closed) →
    ∃ ts : List Nameless, ts.length = a.quantifiers ∧ (∀ t ∈ ts, t.Closed) ∧
      a.nameless.applied ts = b.nameless.applied us

section

variable {scope : Scope} {r : Run} {a b c : Ty}

theorem Ty.Instance.refl (a : Ty) : a.Instance a := fun us hlen hus => ⟨us, hlen, hus, rfl⟩

theorem Ty.Instance.trans (h : a.Instance b) (h' : b.Instance c) : a.Instance c := by
  intro us hlen hus
  obtain ⟨ts, hts, hclosed, heq⟩ := h' us hlen hus
  obtain ⟨ss, hss, hclosed', heq'⟩ := h ts hts hclosed
  exact ⟨ss, hss, hclosed', heq'.trans heq⟩

/-- What is put for constants is put into the types for quantified variables. -/
theorem Ty.Written.bind_applied (h : a.Written) {f : Atom → Nameless} (hf : ∀ c, (f c).Closed)
    (hname : ∀ x, f (.name x) = .const (.name x)) {us : List Nameless}
    (hlen : us.length = a.quantifiers) :
    (a.nameless.applied us).bind f = a.nameless.applied (us.map (·.bind f)) := by
  have hle : us.length ≤ a.nameless.quantifiers := hlen.trans_le (Ty.quantifiers_le_read a [])
  rw [Nameless.bind_applied hf hle, h.bind_nameless hname]

theorem Ty.instance_of_hasInstance (ha : a.Written) (hb : b.Written)
    (h : r.HasInstance scope a b) : a.Instance b := by
  obtain ⟨ts, hts, hwithin, heq⟩ := h
  intro us hus hclosed
  have hf := Nameless.closed_atConstants r.skolems hclosed
  refine ⟨ts.map (·.bind (Nameless.atConstants r.skolems us)), by simpa using hts, ?_, ?_⟩
  · intro t ht
    obtain ⟨u, hu, rfl⟩ := List.mem_map.1 ht
    exact Nameless.closedAt_bind hf (hwithin u hu).1
  · rw [← ha.bind_applied hf (fun _ => rfl) hts, heq,
      hb.bind_applied hf (fun _ => rfl) (Nameless.length_constants _ _),
      Nameless.map_bind_constants hus fun i hi => Nameless.atConstants_of_lt hi]

theorem Ty.Instance.hasInstance (h : a.Instance b) (ha : a.Written) (hb : b.Written) (r : Run)
    (scope : Scope) : r.HasInstance scope a b := by
  have hconst : ∀ u ∈ Nameless.constants r.skolems b.quantifiers, u.Closed := by
    intro u hu
    obtain ⟨id, -, -, rfl⟩ := Nameless.mem_constants.1 hu
    trivial
  obtain ⟨ts, hts, hclosed, heq⟩ := h _ (Nameless.length_constants _ _) hconst
  classical
  obtain ⟨S, hS⟩ : ∃ S : Int → Prop, S = fun id =>
    id ∈ scope ∨ r.skolems ≤ id ∧ id < r.skolems + b.quantifiers := ⟨_, rfl⟩
  have hf := Nameless.closed_forget S
  rw [Run.HasInstance, ← hS]
  refine ⟨ts.map (·.bind (Nameless.forget S)), by simpa using hts, ?_, ?_⟩
  · intro t ht
    obtain ⟨u, hu, rfl⟩ := List.mem_map.1 ht
    exact Nameless.within_forget (hclosed u hu)
  · have hmap : (Nameless.constants r.skolems b.quantifiers).map (·.bind (Nameless.forget S)) =
        Nameless.constants r.skolems b.quantifiers := by
      refine (List.map_congr_left fun u hu => ?_).trans (List.map_id' _)
      obtain ⟨id, hle, hlt, rfl⟩ := Nameless.mem_constants.1 hu
      refine Nameless.forget_skolem ?_
      rw [hS]
      exact .inr ⟨hle, hlt⟩
    rw [← ha.bind_applied hf (fun _ => rfl) hts, heq,
      hb.bind_applied hf (fun _ => rfl) (Nameless.length_constants _ _), hmap]

/-- **Whether a type is an instance does not depend on the run and the scope.** -/
theorem Run.hasInstance_iff_instance (ha : a.Written) (hb : b.Written) :
    r.HasInstance scope a b ↔ a.Instance b :=
  ⟨Ty.instance_of_hasInstance ha hb, fun h => h.hasInstance ha hb r scope⟩

end

/-! ## Subsumption -/

theorem Apart.subset {ts us : List Ty} (h : Apart us) (hsub : ts ⊆ us) : Apart ts :=
  fun t ht u hu => h t (hsub ht) u (hsub hu)

/-- **Subsumption is the instance relation** on written types, in every reachable run and for every
scope of the run. It is reflexive, and it is transitive, whatever runs it is asked in. -/
theorem Reachable.subsume_is_instance {r : Run} (h : Reachable r) {scope : Scope}
    (hs : scope.Over r) {a b : Ty} (ha : a.Written) (hb : b.Written) (hnames : Apart [a, b]) :
    ((∃ r', subsume scope a b r = .ok () r') ↔ r.HasInstance scope a b) ∧
    (∃ r', subsume scope a a r = .ok () r') ∧
    ∀ c : Ty, c.Written → Apart [a, b, c] → ∀ r₁ scope₁ r₂ scope₂,
      Reachable r₁ → Scope.Over r₁ scope₁ → Reachable r₂ → Scope.Over r₂ scope₂ →
      (∃ r', subsume scope₁ a b r₁ = .ok () r') → (∃ r', subsume scope₂ b c r₂ = .ok () r') →
      ∃ r', subsume scope a c r = .ok () r' := by
  have hiff : ∀ {r : Run} {scope : Scope} {a b : Ty}, Reachable r → scope.Over r → a.Written →
      b.Written → Apart [a, b] → ((∃ r', subsume scope a b r = .ok () r') ↔ a.Instance b) :=
    fun h hs ha hb hnames => (subsume_iff_hasInstance h.valid hs ha hb hnames).trans
      (Run.hasInstance_iff_instance ha hb)
  refine ⟨subsume_iff_hasInstance h.valid hs ha hb hnames, ?_, ?_⟩
  · exact (hiff h hs ha ha (hnames.subset (by simp))).2 (.refl a)
  · intro c hc hnames' r₁ scope₁ r₂ scope₂ h₁ hs₁ h₂ hs₂ hab hbc
    have hab' := (hiff h₁ hs₁ ha hb hnames).1 hab
    have hbc' := (hiff h₂ hs₂ hb hc (hnames'.subset (by simp))).1 hbc
    exact (hiff h hs ha hc (hnames'.subset (by simp))).2 (hab'.trans hbc')

/-- Under a scope with one constant, `∀ a. a → a` can stand for `(∀ b. b → int) → ∀ b. b → int`,
with the quantified type put for `a`; so can `∀ x. x`, which can stand for `∀ a. a → a`. -/
theorem subsume_is_instance_of_impredicative :
    let r := Operation.newSkolem.run {}
    let scope := Scope.ofList [0]
    let bottom : Ty := .all 0 "x" (.var "x")
    let same : Ty := .all 1 "a" (.arrow 2 (.var "a") (.var "a"))
    let poly : Ty := .all 3 "b" (.arrow 4 (.var "b") (.var "int"))
    (∃ r', subsume scope same (.arrow 5 poly poly) r = .ok () r') ∧
      ∃ r', subsume scope bottom (.arrow 5 poly poly) r = .ok () r' := by
  intro r scope bottom same poly
  have hreach : Reachable r := (Reachable.empty ⟨rfl, rfl, rfl⟩).step .newSkolem trivial
  have hs : scope.Over r := by decide
  have hsame : ∃ r', subsume scope same (.arrow 5 poly poly) r = .ok () r' := by
    refine (hreach.subsume_is_instance hs (by decide) (by decide) (by decide)).1.2 ?_
    exact ⟨[poly.nameless], rfl, by simp [Nameless.Within, Ty.nameless, poly], rfl⟩
  have hbottom := hreach.subsume_is_instance hs (a := bottom) (b := same) (by decide) (by decide)
    (by decide)
  have hbelow : ∃ r', subsume scope bottom same r = .ok () r' := by
    refine hbottom.1.2 ⟨[.arrow (.const (.skolem 1)) (.const (.skolem 1))], rfl, ?_, rfl⟩
    simpa [Nameless.Within, same, Ty.quantifiers] using Or.inr (by decide)
  exact ⟨hsame,
    hbottom.2.2 _ (by decide) (by decide) r scope r scope hreach hs hreach hs hbelow hsame⟩

end RankN
