import RankN.Proofs.Labels

/-!
# Two runs that mirror each other

Two runs of inference whose inputs differ in the names of bound variables do not stay equal. Their
nodes have other stamps; where one run meets a node twice and takes it to be equal to itself, the
other may have to look into it, and allocates skolem constants on the way; and substitution, which
stops at a quantifier over the same name, leaves more of a type untouched in one run than in the
other.

**The invariant.** A `Mirror` is a pair of labelled runs with the same metavariables, solved and
unsolved alike. Solutions are *alike* (`Ty.Alike`): built alike down to their quantifiers, and of
the same form from there on. Opening a quantifier turns types of the same form into types that are
alike (`Labelled.alike`), because substitution leaves no solved metavariable outside of quantifiers.

**Following.** `w.Sim x y Q` says that the right run follows the left one: if `x` succeeds from the
left run of `w`, then `y` succeeds from the right one, the runs mirror each other again, and `Q`
holds of the answers. Runs of different sizes are given different numbers of steps, so `y` may also
run out of them; whether this happens is decided elsewhere, for each run alone.
-/

namespace RankN

open RankN.Action

/-! ## Types that are alike -/

/-- Types of two runs, read by `φ` and `ψ`, that are built alike down to their quantifiers. -/
inductive Ty.Alike (φ ψ : Ty → Nameless) : Ty → Ty → Prop
  | var (x : String) : Alike φ ψ (.var x) (.var x)
  | all {k k' : Nat} {x y : String} {t u : Ty} :
    φ (.all k x t) = ψ (.all k' y u) → Alike φ ψ (.all k x t) (.all k' y u)
  | arrow {k k' : Nat} {p q p' q' : Ty} :
    Alike φ ψ p p' → Alike φ ψ q q' → Alike φ ψ (.arrow k p q) (.arrow k' p' q')
  | app {k k' : Nat} {f a f' a' : Ty} :
    Alike φ ψ f f' → Alike φ ψ a a' → Alike φ ψ (.app k f a) (.app k' f' a')
  | mvar {m m' : MVar} : m.id = m'.id → Alike φ ψ (.mvar m) (.mvar m')
  | skolem {c c' : Int} : φ (.skolem c) = ψ (.skolem c') → Alike φ ψ (.skolem c) (.skolem c')
  | unknown (n : Nat) (k : String) : Alike φ ψ (.unknown n k) (.unknown n k)
  | absent : Alike φ ψ .absent .absent

theorem Ty.Alike.mono {P : Ty → Prop} (hP : Ty.Stable P) {r s : Run} {φ ψ φ' ψ' : Ty → Nameless}
    (hforms : ∀ t t', t.Of P r → t'.Of P s → φ t = ψ t' → φ' t = ψ' t') {t t' : Ty}
    (h : t.Alike φ ψ t') (ht : t.Of P r) (ht' : t'.Of P s) : t.Alike φ' ψ' t' := by
  induction h with
  | var x => exact .var x
  | all h => exact .all (hforms _ _ ht ht' h)
  | arrow _ _ ihp ihq =>
    rw [Ty.of_arrow hP] at ht ht'
    exact .arrow (ihp ht.1 ht'.1) (ihq ht.2 ht'.2)
  | app _ _ ihf iha =>
    obtain ⟨hf, ha⟩ := ht.app hP
    obtain ⟨hf', ha'⟩ := ht'.app hP
    exact .app (ihf hf hf') (iha ha ha')
  | mvar h => exact .mvar h
  | skolem h => exact .skolem (hforms _ _ ht ht' h)
  | unknown n k => exact .unknown n k
  | absent => exact .absent

/-- **Types of the same form are alike** if no metavariable outside of their quantifiers is
solved. -/
theorem Labelled.alike {B : String → Prop} {ℓ ℓ' : Labelled B} {t t' : Ty}
    (ht : t.Of (Ty.Named B []) ℓ.run) (ht' : t'.Of (Ty.Named B []) ℓ'.run)
    (hr : t.Resolved ℓ.run.table) (hr' : t'.Resolved ℓ'.run.table) (h : ℓ.form t = ℓ'.form t') :
    t.Alike ℓ.form ℓ'.form t' := by
  have hP := Ty.stable_named B
  induction t generalizing t' with
  | unknown n k =>
    cases t' with
    | unknown n' k' =>
      simp only [form_unknown, Nameless.const.injEq, Atom.unknown.injEq] at h
      rw [h.1, h.2]
      exact .unknown n' k'
    | mvar m' => simp [ℓ'.form_unsolved hr'] at h
    | _ => simp at h
  | mvar m =>
    rw [ℓ.form_unsolved hr] at h
    cases t' with
    | mvar m' =>
      rw [ℓ'.form_unsolved hr'] at h
      simp only [Nameless.const.injEq, Atom.mvar.injEq, MVar.mk.injEq] at h
      exact .mvar h.2.1
    | _ => simp at h
  | arrow n p q ihp ihq =>
    cases t' with
    | arrow n' p' q' =>
      rw [Ty.of_arrow hP] at ht ht'
      simp only [form_arrow, Nameless.arrow.injEq] at h
      exact .arrow (ihp ht.1 ht'.1 hr.1 hr'.1 h.1) (ihq ht.2 ht'.2 hr.2 hr'.2 h.2)
    | mvar m' => simp [ℓ'.form_unsolved hr'] at h
    | _ => simp at h
  | app n f a ihf iha =>
    cases t' with
    | app n' f' a' =>
      obtain ⟨hf, ha⟩ := ht.app hP
      obtain ⟨hf', ha'⟩ := ht'.app hP
      simp only [form_app, Nameless.app.injEq] at h
      exact .app (ihf hf hf' hr.1 hr'.1 h.1) (iha ha ha' hr.2 hr'.2 h.2)
    | mvar m' => simp [ℓ'.form_unsolved hr'] at h
    | _ => simp at h
  | all n x body =>
    cases t' with
    | all n' y body' => exact .all h
    | mvar m' => simp [ℓ'.form_unsolved hr'] at h
    | _ => simp at h
  | var x =>
    cases t' with
    | var y =>
      simp only [form_var, Nameless.const.injEq, Atom.name.injEq] at h
      exact h ▸ .var x
    | mvar m' => simp [ℓ'.form_unsolved hr'] at h
    | _ => simp at h
  | skolem c =>
    cases t' with
    | skolem c' => exact .skolem h
    | mvar m' => simp [ℓ'.form_unsolved hr'] at h
    | _ => simp at h
  | absent =>
    cases t' with
    | absent => exact .absent
    | mvar m' => simp [ℓ'.form_unsolved hr'] at h
    | _ => simp at h

/-! ## Mirrors -/

/-- The scopes hold constants with the same labels. -/
def Scope.Like (κ κ' : Int → Int) (s s' : Scope) : Prop :=
  ∀ l, (∃ c ∈ s, κ c = l) ↔ ∃ c ∈ s', κ' c = l

theorem Scope.Like.congr {κ κ' μ μ' : Int → Int} {s s' : Scope} (h : Scope.Like κ κ' s s')
    (hs : ∀ c ∈ s, μ c = κ c) (hs' : ∀ c ∈ s', μ' c = κ' c) : Scope.Like μ μ' s s' := by
  intro l
  have hl : (∃ c ∈ s, μ c = l) ↔ ∃ c ∈ s, κ c = l :=
    exists_congr fun c => and_congr_right fun hc => by rw [hs c hc]
  have hr : (∃ c ∈ s', μ' c = l) ↔ ∃ c ∈ s', κ' c = l :=
    exists_congr fun c => and_congr_right fun hc => by rw [hs' c hc]
  rw [hl, hr]
  exact h l

/-- Different labels tell scopes apart. -/
theorem Scope.Like.unique {κ κ' : Int → Int} {s s₁ s₂ : Scope} (h₁ : Scope.Like κ κ' s s₁)
    (h₂ : Scope.Like κ κ' s s₂) (hinj : ∀ c ∈ s₁, ∀ d ∈ s₂, κ' c = κ' d → c = d) : s₁ = s₂ := by
  refine Scope.ext_mem fun c => ⟨fun hc => ?_, fun hc => ?_⟩
  · obtain ⟨d, hd, hdc⟩ := (h₂ _).1 ((h₁ _).2 ⟨c, hc, rfl⟩)
    rwa [hinj c hc d hd hdc.symm]
  · obtain ⟨d, hd, hdc⟩ := (h₁ _).1 ((h₂ _).2 ⟨c, hc, rfl⟩)
    rwa [← hinj d hd c hc hdc]

/-- Two labelled runs whose metavariables have scopes with the same labels and solutions that are
alike. -/
structure Mirror (B : String → Prop) where
  left : Labelled B
  right : Labelled B
  next : right.next = left.next
  mvars : right.run.mvars = left.run.mvars
  scopes : ∀ m m', left.run.table.owns m → right.run.table.owns m' → m.id = m'.id →
    Scope.Like left.label right.label m.scope m'.scope
  solutions : ∀ m m', left.run.table.owns m → right.run.table.owns m' → m.id = m'.id →
    Option.Rel (Ty.Alike left.form right.form) (left.run.table.solution? m)
      (right.run.table.solution? m')

namespace Mirror

variable {B : String → Prop}

/-- The runs of `w'` have all that the runs of `w` have, and types of the same form still have the
same form. -/
structure Extends (w w' : Mirror B) : Prop where
  left : w.left.run.Extends w'.left.run
  right : w.right.run.Extends w'.right.run
  labels_left : ∀ c, w.left.run.Allocated c → w'.left.label c = w.left.label c
  labels_right : ∀ c, w.right.run.Allocated c → w'.right.label c = w.right.label c
  forms : ∀ t t', t.Of (Ty.Named B []) w.left.run → t'.Of (Ty.Named B []) w.right.run →
    w.left.form t = w.right.form t' → w'.left.form t = w'.right.form t'

/-- The types are alike, each in its run. -/
structure Like (w : Mirror B) (t t' : Ty) : Prop where
  left : t.Of (Ty.Named B []) w.left.run
  right : t'.Of (Ty.Named B []) w.right.run
  alike : t.Alike w.left.form w.right.form t'

/-- The scopes hold constants with the same labels, each of its run. -/
structure Scopes (w : Mirror B) (s s' : Scope) : Prop where
  left : s.Over w.left.run
  right : s'.Over w.right.run
  like : Scope.Like w.left.label w.right.label s s'

variable {w w' w'' : Mirror B} {t t' u u' : Ty} {s s' : Scope} {m m' : MVar}

theorem Extends.refl (w : Mirror B) : w.Extends w :=
  ⟨.refl _, .refl _, fun _ _ => rfl, fun _ _ => rfl, fun _ _ _ _ h => h⟩

theorem Extends.of_left (h : w.Extends w') (ht : t.Of (Ty.Named B []) w.left.run) :
    t.Of (Ty.Named B []) w'.left.run := ht.mono (Ty.stable_named B) w.left.valid w'.left.valid h.left

theorem Extends.of_right (h : w.Extends w') (ht : t.Of (Ty.Named B []) w.right.run) :
    t.Of (Ty.Named B []) w'.right.run := ht.mono (Ty.stable_named B) w.right.valid w'.right.valid h.right

theorem Extends.trans (h : w.Extends w') (h' : w'.Extends w'') : w.Extends w'' where
  left := h.left.trans h'.left
  right := h.right.trans h'.right
  labels_left c hc := by rw [h'.labels_left c (h.left.allocated hc), h.labels_left c hc]
  labels_right c hc := by rw [h'.labels_right c (h.right.allocated hc), h.labels_right c hc]
  forms t t' ht ht' heq := h'.forms t t' (h.of_left ht) (h.of_right ht') (h.forms t t' ht ht' heq)

theorem Like.mono (h : w.Like t t') (he : w.Extends w') : w'.Like t t' :=
  ⟨he.of_left h.left, he.of_right h.right,
    h.alike.mono (Ty.stable_named B) he.forms h.left h.right⟩

theorem Scopes.mono (h : w.Scopes s s') (he : w.Extends w') : w'.Scopes s s' :=
  ⟨h.left.mono he.left, h.right.mono he.right,
    h.like.congr (fun c hc => he.labels_left c (h.left c hc))
      fun c hc => he.labels_right c (h.right c hc)⟩

theorem Scopes.insert (h : w.Scopes s s') {c c' : Int} (hc : w.Like (.skolem c) (.skolem c')) :
    w.Scopes (s.insert c) (s'.insert c') := by
  have hlabel : w.left.label c = w.right.label c' := by
    cases hc.alike with
    | skolem heq => simpa using heq
  refine ⟨h.left.insert ?_, h.right.insert ?_, fun l => ?_⟩
  · simpa [Ty.Over] using hc.left.isOver
  · simpa [Ty.Over] using hc.right.isOver
  · simp only [Scope.mem_insert, or_and_right, exists_or, exists_eq_left, hlabel]
    exact or_congr_right (h.like l)

/-! ## Types that are alike -/

theorem Like.arrow {k k' : Nat} {p q p' q' : Ty} :
    w.Like (.arrow k p q) (.arrow k' p' q') ↔ w.Like p p' ∧ w.Like q q' := by
  have hP := Ty.stable_named B
  constructor
  · intro ⟨hl, hr, ha⟩
    obtain ⟨hp, hq⟩ := (Ty.of_arrow hP).1 hl
    obtain ⟨hp', hq'⟩ := (Ty.of_arrow hP).1 hr
    cases ha with
    | arrow hap haq => exact ⟨⟨hp, hp', hap⟩, hq, hq', haq⟩
  · intro ⟨hp, hq⟩
    exact ⟨(Ty.of_arrow hP).2 ⟨hp.left, hq.left⟩, (Ty.of_arrow hP).2 ⟨hp.right, hq.right⟩,
      .arrow hp.alike hq.alike⟩

theorem Like.app {k k' : Nat} {f a f' a' : Ty} (h : w.Like (.app k f a) (.app k' f' a')) :
    w.Like f f' ∧ w.Like a a' := by
  have hP := Ty.stable_named B
  obtain ⟨hf, ha⟩ := h.left.app hP
  obtain ⟨hf', ha'⟩ := h.right.app hP
  cases h.alike with
  | app haf haa => exact ⟨⟨hf, hf', haf⟩, ha, ha', haa⟩

theorem like_mvar (ho : w.left.run.table.owns m) (ho' : w.right.run.table.owns m')
    (hid : m.id = m'.id) : w.Like (.mvar m) (.mvar m') :=
  ⟨Ty.of_mvar (Ty.stable_named B) w.left.valid ho, Ty.of_mvar (Ty.stable_named B) w.right.valid ho',
    .mvar hid⟩

theorem Like.id (h : w.Like (.mvar m) (.mvar m')) : m.id = m'.id := by
  cases h.alike with
  | mvar hid => exact hid

/-- Metavariables of the same id are both unsolved, or their solutions are alike. -/
theorem Like.solution (h : w.Like (.mvar m) (.mvar m')) :
    (w.left.run.table.solution? m = none ∧ w.right.run.table.solution? m' = none) ∨
    ∃ u u', w.left.run.table.solution? m = some u ∧ w.right.run.table.solution? m' = some u' ∧
      w.Like u u' := by
  have hrel := w.solutions m m' h.left.owns h.right.owns h.id
  cases hl : w.left.run.table.solution? m with
  | none =>
    cases hr : w.right.run.table.solution? m' with
    | none => exact .inl ⟨rfl, rfl⟩
    | some u' => rw [hl, hr] at hrel; cases hrel
  | some u =>
    cases hr : w.right.run.table.solution? m' with
    | none => rw [hl, hr] at hrel; cases hrel
    | some u' =>
      rw [hl, hr] at hrel
      cases hrel with
      | some ha =>
        exact .inr ⟨u, u', rfl, rfl, w.left.valid.solutions m u hl,
          w.right.valid.solutions m' u' hr, ha⟩

theorem Like.unsolved (h : w.Like (.mvar m) (.mvar m')) (hm : w.left.run.table.solution? m = none) :
    w.right.run.table.solution? m' = none := by
  rcases h.solution with ⟨-, hm'⟩ | ⟨u, u', hu, -⟩
  · exact hm'
  · rw [hm] at hu
    cases hu

/-- Solutions of metavariables of the same id are alike. -/
theorem Like.solved (h : w.Like (.mvar m) (.mvar m')) (hu : w.left.run.table.solution? m = some u) :
    ∃ u', w.right.run.table.solution? m' = some u' ∧ w.Like u u' := by
  rcases h.solution with ⟨hnone, -⟩ | ⟨v, v', hv, hv', hlike⟩
  · rw [hu] at hnone
    cases hnone
  · rw [hu] at hv
    cases hv
    exact ⟨v', hv', hlike⟩

/-- One of two types that are alike is a metavariable if the other is the one of the same id. -/
theorem Like.eq_mvar_iff (hm : w.Like (.mvar m) (.mvar m')) (h : w.Like t t') :
    t = .mvar m ↔ t' = .mvar m' := by
  constructor
  · intro htm
    subst htm
    cases t' with
    | mvar k => rw [Table.eq_of_owns h.right.owns hm.right.owns (by rw [← h.id, hm.id])]
    | _ => cases h.alike
  · intro htm
    subst htm
    cases t with
    | mvar k => rw [Table.eq_of_owns h.left.owns hm.left.owns (by rw [h.id, hm.id])]
    | _ => cases h.alike

/-- Types that are alike have the same form. -/
theorem Like.form (h : w.Like t t') : w.left.form t = w.right.form t' := by
  induction t using w.left.valid.acyclic.induction generalizing t' with
  | var x => cases h.alike with | var => rfl
  | all n x body => cases h.alike with | all heq => exact heq
  | arrow n p q ihp ihq =>
    cases t' with
    | arrow n' p' q' =>
      obtain ⟨hp, hq⟩ := Like.arrow.1 h
      simp only [Labelled.form_arrow, ihp hp, ihq hq]
    | _ => cases h.alike
  | app n f a ihf iha =>
    cases t' with
    | app n' f' a' =>
      obtain ⟨hf, ha⟩ := h.app
      simp only [Labelled.form_app, ihf hf, iha ha]
    | _ => cases h.alike
  | unsolved m hm =>
    cases t' with
    | mvar m' => rw [w.left.form_unsolved hm, w.right.form_unsolved (h.unsolved hm), h.id]
    | _ => cases h.alike
  | solved m u hm ih =>
    cases t' with
    | mvar m' =>
      obtain ⟨u', hu', hlike⟩ := h.solved hm
      rw [w.left.form_solved hm, w.right.form_solved hu', ih hlike]
    | _ => cases h.alike
  | skolem c => cases h.alike with | skolem heq => exact heq
  | unknown n k => cases h.alike with | unknown => rfl
  | absent => cases h.alike with | absent => rfl

/-! ## Steps of both runs -/

/-- Solutions stay alike when forms that are equal stay equal. -/
theorem solutions_mono (w : Mirror B) {φ ψ : Ty → Nameless}
    (hforms : ∀ t t', t.Of (Ty.Named B []) w.left.run → t'.Of (Ty.Named B []) w.right.run →
      w.left.form t = w.right.form t' → φ t = ψ t')
    (ho : w.left.run.table.owns m) (ho' : w.right.run.table.owns m') (hid : m.id = m'.id) :
    Option.Rel (Ty.Alike φ ψ) (w.left.run.table.solution? m) (w.right.run.table.solution? m') := by
  rcases (like_mvar ho ho' hid).solution with ⟨hm, hm'⟩ | ⟨u, u', hu, hu', h⟩
  · rw [hm, hm']
    exact .none
  · rw [hu, hu']
    exact .some (h.alike.mono (Ty.stable_named B) hforms h.left h.right)

section

variable {r s : Run} (hr : w.left.run.Idles r) (hs : w.right.run.Idles s)

/-- Both runs go on without touching their tables. -/
def advance (w : Mirror B) {r s : Run} (hr : w.left.run.Idles r) (hs : w.right.run.Idles s) :
    Mirror B where
  left := w.left.advance r hr (r.skolems + s.skolems) (by omega)
  right := w.right.advance s hs (r.skolems + s.skolems) (by omega)
  next := by simp only [Labelled.advance, w.next]
  mvars := by simp only [Labelled.advance, hr.mvars, hs.mvars, w.mvars]
  scopes m m' ho ho' hid := by
    have ho : w.left.run.table.owns m := hr.table ▸ ho
    have ho' : w.right.run.table.owns m' := hs.table ▸ ho'
    exact (w.scopes m m' ho ho' hid).congr
      (fun c hc => w.left.label_advance hr _ (w.left.valid.scopes m ho c hc))
      fun c hc => w.right.label_advance hs _ (w.right.valid.scopes m' ho' c hc)
  solutions m m' ho ho' hid := by
    have ho : w.left.run.table.owns m := hr.table ▸ ho
    have ho' : w.right.run.table.owns m' := hs.table ▸ ho'
    show Option.Rel _ (r.table.solution? m) (s.table.solution? m')
    rw [hr.table, hs.table]
    refine w.solutions_mono (fun t t' ht ht' heq => ?_) ho ho' hid
    rw [w.left.form_advance _ _ ht.isOver, w.right.form_advance _ _ ht'.isOver, heq]

theorem extends_advance : w.Extends (w.advance hr hs) where
  left := hr.extends_
  right := hs.extends_
  labels_left _ hc := w.left.label_advance hr (by omega) hc
  labels_right _ hc := w.right.label_advance hs (by omega) hc
  forms t t' ht ht' heq := by
    rw [advance, w.left.form_advance _ _ ht.isOver, w.right.form_advance _ _ ht'.isOver, heq]

/-- The first new constants of both runs get the same label. -/
theorem label_advance :
    (w.advance hr hs).left.label w.left.run.skolems =
      (w.advance hr hs).right.label w.right.run.skolems := by
  simp only [advance, Labelled.advance, w.next, Int.lt_irrefl, if_false]
  omega

end

/-- Metavariables of the same id are both new, or neither is. -/
theorem owns_addMVar (w : Mirror B) (s s' : Scope)
    (ho : (Run.newMVar s w.left.run).2.table.owns m)
    (ho' : (Run.newMVar s' w.right.run).2.table.owns m') (hid : m.id = m'.id) :
    (m = (Run.newMVar s w.left.run).1 ∧ m' = (Run.newMVar s' w.right.run).1) ∨
    (w.left.run.table.owns m ∧ w.right.run.table.owns m') := by
  have hcount : (w.right.run.mvars : Int) = w.left.run.mvars := congrArg Int.ofNat w.mvars
  rcases (w.left.valid.tidy.owns_newMVar s m).1 ho with hm | hm
  · rcases (w.right.valid.tidy.owns_newMVar s' m').1 ho' with hm' | hm'
    · exact .inl ⟨hm, hm'⟩
    · have hnext : m'.id = w.right.run.mvars := by
        rw [← hid, hm, hcount]
        rfl
      exact absurd hm' (w.right.valid.tidy.not_owns_next hnext)
  · rcases (w.right.valid.tidy.owns_newMVar s' m').1 ho' with hm' | hm'
    · have hnext : m.id = w.left.run.mvars := by
        rw [hid, hm', ← hcount]
        rfl
      exact absurd hm (w.left.valid.tidy.not_owns_next hnext)
    · exact .inr ⟨hm, hm'⟩

/-- Both runs allocate a metavariable. -/
def addMVar (w : Mirror B) (h : w.Scopes s s') : Mirror B where
  left := w.left.addMVar s h.left
  right := w.right.addMVar s' h.right
  next := w.next
  mvars := congrArg (· + 1) w.mvars
  scopes m m' ho ho' hid := by
    rcases w.owns_addMVar s s' ho ho' hid with ⟨hm, hm'⟩ | ⟨ho, ho'⟩
    · rw [hm, hm']
      exact h.like
    · exact w.scopes m m' ho ho' hid
  solutions m m' ho ho' hid := by
    have hl := w.left.valid.adds_newMVar s
    have hr := w.right.valid.adds_newMVar s'
    show Option.Rel _ ((Run.newMVar s w.left.run).2.table.solution? m)
      ((Run.newMVar s' w.right.run).2.table.solution? m')
    rcases w.owns_addMVar s s' ho ho' hid with ⟨hm, hm'⟩ | ⟨ho, ho'⟩
    · rw [hm, hm', hl.unsolved, hr.unsolved]
      exact .none
    · rw [hl.solution, hr.solution]
      refine w.solutions_mono (fun t t' _ _ heq => ?_) ho ho' hid
      rw [w.left.form_addMVar, w.right.form_addMVar, heq]

theorem extends_addMVar (h : w.Scopes s s') : w.Extends (w.addMVar h) where
  left := w.left.run.extends_newMVar s
  right := w.right.run.extends_newMVar s'
  labels_left _ _ := rfl
  labels_right _ _ := rfl
  forms t t' _ _ heq := by
    rw [addMVar, w.left.form_addMVar, w.right.form_addMVar, heq]

/-- The scopes of metavariables of the same id. -/
theorem Like.scopes (h : w.Like (.mvar m) (.mvar m')) : w.Scopes m.scope m'.scope :=
  ⟨w.left.valid.scopes m h.left.owns, w.right.valid.scopes m' h.right.owns,
    w.scopes m m' h.left.owns h.right.owns h.id⟩

/-- A metavariable of the right run has one of the same id in the left run. -/
theorem exists_left (w : Mirror B) (ho : w.right.run.table.owns m') :
    ∃ m, w.left.run.table.owns m ∧ m.id = m'.id := by
  have hlt := Table.lt_size_of_owns ho
  rw [← w.right.valid.count, w.mvars, w.left.valid.count] at hlt
  have hid' := w.right.valid.ids _ m' (Table.owns_iff_mvarAt?.1 ho)
  obtain ⟨m, hm⟩ : ∃ m, w.left.run.table.mvarAt? m'.id.toNat = some m := by
    simp [Table.mvarAt?, Array.getElem?_eq_getElem hlt]
  have hid := w.left.valid.ids _ m hm
  refine ⟨m, Table.owns_iff_mvarAt?.2 ?_, hid.trans hid'.symm⟩
  rwa [hid, Int.toNat_natCast]

/-- **Obstacles are the same on both sides.** -/
theorem Like.solvable (hm : w.Like (.mvar m) (.mvar m')) (ht : w.Like t t')
    (h : w.left.Solvable m t) (hm' : w.right.run.table.solution? m' = none) :
    w.right.Solvable m' t' := by
  refine ⟨hm.right.owns, hm', ht.right, ?_⟩
  have hfree := (w.left.obstacle?_eq_none h.type.isOver h.owned h.unsolved).1 h.free
  rw [w.right.obstacle?_eq_none ht.right.isOver hm.right.owns hm', ← ht.form]
  refine ⟨fun k' hk' hmem => ?_, fun l hl => (hm.scopes.like l).1 (hfree.2 l hl)⟩
  obtain ⟨k, hk, hkid⟩ := w.exists_left hk'
  obtain ⟨hne, hscope⟩ := hfree.1 k hk (hkid ▸ hmem)
  refine ⟨fun heq => hne (Table.eq_of_owns hk h.owned ?_), ?_⟩
  · rw [hkid, heq, hm.id]
  · -- Both scopes have the labels of the same scope of the left run.
    have hks := (like_mvar hk hk' hkid).scopes
    refine Scope.Like.unique hks.like (hscope ▸ hm.scopes.like) fun c hc d hd => ?_
    exact w.right.injective c d (hks.right c hc) (hm.scopes.right d hd)

/-- Types of the same form still have the same form once a metavariable is solved on both sides. -/
theorem form_solve (hm : w.Like (.mvar m) (.mvar m')) (ht : w.Like t t')
    (h : w.left.Solvable m t) (h' : w.right.Solvable m' t') (hu : u.Of (Ty.Named B []) w.left.run)
    (hu' : u'.Of (Ty.Named B []) w.right.run) (heq : w.left.form u = w.right.form u') :
    (w.left.solve m t h).form u = (w.right.solve m' t' h').form u' := by
  rw [Labelled.form_solve h hu, Labelled.form_solve h' hu', heq, ht.form, hm.id]

/-- Both runs solve a metavariable. -/
def solve (w : Mirror B) (hm : w.Like (.mvar m) (.mvar m')) (ht : w.Like t t')
    (h : w.left.Solvable m t) (h' : w.right.Solvable m' t') : Mirror B where
  left := w.left.solve m t h
  right := w.right.solve m' t' h'
  next := w.next
  mvars := w.mvars
  scopes k k' ho ho' hid := by
    have ho : w.left.run.table.owns k := (Table.owns_write ..).symm.trans ho
    have ho' : w.right.run.table.owns k' := (Table.owns_write ..).symm.trans ho'
    exact w.scopes k k' ho ho' hid
  solutions k k' ho ho' hid := by
    have ho : w.left.run.table.owns k := (Table.owns_write ..).symm.trans ho
    have ho' : w.right.run.table.owns k' := (Table.owns_write ..).symm.trans ho'
    have hforms : ∀ u u', u.Of (Ty.Named B []) w.left.run → u'.Of (Ty.Named B []) w.right.run →
        w.left.form u = w.right.form u' →
        (w.left.solve m t h).form u = (w.right.solve m' t' h').form u' :=
      fun _ _ hu hu' heq => form_solve hm ht h h' hu hu' heq
    show Option.Rel _ ((w.left.run.table.write m t).solution? k)
      ((w.right.run.table.write m' t').solution? k')
    by_cases hk : k = m
    · have hk' : k' = m' := Table.eq_of_owns ho' h'.owned (by rw [← hid, hk, hm.id])
      rw [hk, hk', Table.solution?_write_self h.owned, Table.solution?_write_self h'.owned]
      exact .some (ht.alike.mono (Ty.stable_named B) hforms ht.left ht.right)
    · have hk' : k' ≠ m' := fun hk' => hk (Table.eq_of_owns ho h.owned (by rw [hid, hk', hm.id]))
      rw [Table.solution?_write_of_ne _ hk, Table.solution?_write_of_ne _ hk']
      exact w.solutions_mono hforms ho ho' hid

theorem extends_solve (hm : w.Like (.mvar m) (.mvar m')) (ht : w.Like t t')
    (h : w.left.Solvable m t) (h' : w.right.Solvable m' t') :
    w.Extends (w.solve hm ht h h') where
  left := w.left.run.extends_solved h.unsolved t
  right := w.right.run.extends_solved h'.unsolved t'
  labels_left _ _ := rfl
  labels_right _ _ := rfl
  forms _ _ hu hu' heq := form_solve hm ht h h' hu hu' heq

/-! ## Following -/

section

variable {ε δ α β γ η : Type} {x : Action ε α} {y : Action δ β} {Q Q' : Mirror B → α → β → Prop}

/-- If `x` succeeds from the left run, then `y` does from the right run, with an answer as in `Q`,
and the runs mirror each other again; or `y` runs out of steps. -/
def Sim (w : Mirror B) (x : Action ε α) (y : Action δ β) (Q : Mirror B → α → β → Prop) : Prop :=
  ∀ a r, x w.left.run = .ok a r →
    (∃ s, y w.right.run = .error (.fault .cyclic) s) ∨
    ∃ b w', w.Extends w' ∧ w'.left.run = r ∧ y w.right.run = .ok b w'.right.run ∧ Q w' a b

theorem sim_pure {a : α} {b : β} (h : Q w a b) :
    w.Sim (pure a : Action ε α) (pure b : Action δ β) Q := by
  intro _ r hok
  cases hok
  exact .inr ⟨b, w, .refl w, rfl, rfl, h⟩

/-- An action that does not succeed need not be followed. -/
theorem sim_of_stops (h : x.Ensures w.left.run (fun _ _ => False) fun _ _ => True) : w.Sim x y Q :=
  fun _ _ hok => (h.of_ok hok).elim

theorem sim_cyclic : w.Sim x (throw (.fault .cyclic) : Action δ β) Q :=
  fun _ _ _ => .inl ⟨_, rfl⟩

theorem Sim.mono (h : w.Sim x y Q) (hQ : ∀ w' a b, w.Extends w' → Q w' a b → Q' w' a b) :
    w.Sim x y Q' := by
  intro a r hok
  rcases h a r hok with hstop | ⟨b, w', he, hl, hr, hq⟩
  · exact .inl hstop
  · exact .inr ⟨b, w', he, hl, hr, hQ w' a b he hq⟩

theorem Sim.bind {f : α → Action ε γ} {g : β → Action δ η} {Q' : Mirror B → γ → η → Prop}
    (h : w.Sim x y Q) (hf : ∀ w' a b, w.Extends w' → Q w' a b → w'.Sim (f a) (g b) Q') :
    w.Sim (x >>= f) (y >>= g) Q' := by
  intro c r hok
  have hx : (x >>= f) w.left.run = EStateM.bind x f w.left.run := rfl
  have hy : (y >>= g) w.right.run = EStateM.bind y g w.right.run := rfl
  rw [hx] at hok
  rw [hy]
  unfold EStateM.bind at hok ⊢
  cases hxr : x w.left.run with
  | error stop r₁ => simp [hxr] at hok
  | ok a r₁ =>
    simp only [hxr] at hok
    rcases h a r₁ hxr with ⟨s, hstop⟩ | ⟨b, w₁, he, hl, hr, hq⟩
    · exact .inl ⟨s, by rw [hstop]⟩
    · rw [hr]
      rw [← hl] at hok
      rcases hf w₁ a b he hq c r hok with hstop | ⟨d, w₂, he₂, hl₂, hr₂, hq₂⟩
      · exact .inl hstop
      · exact .inr ⟨d, w₂, he.trans he₂, hl₂, hr₂, hq₂⟩

theorem sim_get_bind {f : Run → Action ε α} {g : Run → Action δ β}
    (h : w.Sim (f w.left.run) (g w.right.run) Q) : w.Sim (get >>= f) (get >>= g) Q := h

theorem sim_lift {x : StateM Run α} {y : StateM Run β} (w' : Mirror B) (he : w.Extends w')
    (hl : w'.left.run = (x w.left.run).2) (hr : w'.right.run = (y w.right.run).2)
    (hq : Q w' (x w.left.run).1 (y w.right.run).1) :
    w.Sim (liftM x : Action ε α) (liftM y : Action δ β) Q := by
  intro a r hok
  cases hok
  refine .inr ⟨(y w.right.run).1, w', he, hl, ?_, hq⟩
  rw [hr]
  rfl

theorem Sim.solving {x : Solve α} {y : Solve β} (h : w.Sim x y Q) (e e' : Expr) :
    w.Sim (solving e x) (solving e' y) Q := by
  intro a r hok
  rw [solving_apply] at hok
  rw [solving_apply]
  cases hx : x w.left.run with
  | error stop r₁ => cases stop <;> simp [hx] at hok
  | ok b r₁ =>
    simp only [hx, EStateM.Result.ok.injEq] at hok
    obtain ⟨rfl, rfl⟩ := hok
    rcases h b r₁ hx with ⟨s, hstop⟩ | ⟨c, w', he, hl, hr, hq⟩
    · exact .inl ⟨s, by rw [hstop]⟩
    · exact .inr ⟨c, w', he, hl, by rw [hr], hq⟩

/-- Neither side touches its table. -/
theorem sim_idle {x : Action ε Unit} {y : Action δ Unit}
    (hx : x.Ensures w.left.run (fun _ r => w.left.run.Idles r)
      fun stop _ => stop = .fault .cyclic)
    (hy : y.Ensures w.right.run (fun _ s => w.right.run.Idles s)
      fun stop _ => stop = .fault .cyclic) : w.Sim x y fun _ _ _ => True := by
  intro a r hok
  have hr := hx.of_ok hok
  cases hys : y w.right.run with
  | error stop s => exact .inl ⟨s, by rw [hy.of_error hys]⟩
  | ok b s =>
    have hs := hy.of_ok hys
    exact .inr ⟨b, w.advance hr hs, extends_advance hr hs, rfl, rfl, trivial⟩

theorem sim_log (e e' : Event) :
    w.Sim (liftM (Run.log e) : Action ε Unit) (liftM (Run.log e') : Action δ Unit)
      fun _ _ _ => True :=
  sim_lift (w.advance (w.left.run.agrees_log e).idles
    (w.right.run.agrees_log e').idles) (extends_advance _ _) rfl rfl trivial

end

/-! ## What both runs allocate -/

theorem sim_newSkolem {ε δ : Type} :
    w.Sim (liftM Run.newSkolem : Action ε Int) (liftM Run.newSkolem : Action δ Int)
      fun w' c c' => w'.Like (.skolem c) (.skolem c') := by
  have hr : w.left.run.Idles (Run.newSkolem w.left.run).2 := ⟨rfl, rfl, Nat.le_succ _⟩
  have hs : w.right.run.Idles (Run.newSkolem w.right.run).2 := ⟨rfl, rfl, Nat.le_succ _⟩
  have hof : ∀ r : Run, (Ty.skolem r.skolems).Of (Ty.Named B []) (Run.newSkolem r).2 := by
    refine fun r => ⟨?_, trivial⟩
    simp only [Ty.Over, Ty.leaves_skolem, Run.Allocated, Run.newSkolem]
    omega
  refine sim_lift (w.advance hr hs) (extends_advance hr hs) rfl rfl ⟨hof _, hof _, .skolem ?_⟩
  exact congrArg (fun l => Nameless.const (.skolem l)) (label_advance hr hs)

theorem sim_newMVar {ε δ : Type} (h : w.Scopes s s') :
    w.Sim (liftM (Run.newMVar s) : Action ε MVar) (liftM (Run.newMVar s') : Action δ MVar)
      fun w' m m' => w'.Like (.mvar m) (.mvar m') ∧ w.left.run.Adds s m w'.left.run := by
  have hl := w.left.valid.adds_newMVar s
  have hr := w.right.valid.adds_newMVar s'
  refine sim_lift (w.addMVar h) (extends_addMVar h) rfl rfl ⟨?_, hl⟩
  refine like_mvar hl.owned hr.owned ?_
  exact congrArg Int.ofNat w.mvars.symm

theorem sim_newArrow {ε δ : Type} {p q p' q' : Ty} (hp : w.Like p p') (hq : w.Like q q') :
    w.Sim (liftM (Run.newArrow p q) : Action ε Ty) (liftM (Run.newArrow p' q') : Action δ Ty)
      fun w' t t' => w'.Like t t' ∧ (∃ n, t = .arrow n p q) ∧
        w'.left.run.table = w.left.run.table := by
  have hr : w.left.run.Idles (Run.newArrow p q w.left.run).2 := ⟨rfl, rfl, le_rfl⟩
  have hs : w.right.run.Idles (Run.newArrow p' q' w.right.run).2 := ⟨rfl, rfl, le_rfl⟩
  have he := extends_advance hr hs
  exact sim_lift _ he rfl rfl ⟨Like.arrow.2 ⟨hp.mono he, hq.mono he⟩, ⟨_, rfl⟩, rfl⟩

/-! ## Opening quantifiers -/

end Mirror

/-- A type that quantifiers are opened at, an allocated skolem constant or an unsolved metavariable,
with its meaning. -/
inductive Labelled.Fresh {B : String → Prop} (ℓ : Labelled B) : Ty → Atom → Prop
  | skolem {c : Int} : ℓ.run.Allocated c → Fresh ℓ (.skolem c) (.skolem c)
  | mvar {m : MVar} : ℓ.run.table.owns m → ℓ.run.table.solution? m = none →
    Fresh ℓ (.mvar m) (.mvar m)

/-- **Opening a quantifier** touches nothing, and returns a type whose form is that of the body at
the type it is opened at. -/
theorem Labelled.Fresh.openAll {B : String → Prop} {ℓ : Labelled B} {k : Nat} {x : String}
    {body new : Ty} {c : Atom} (hnew : ℓ.Fresh new c) (h : (Ty.all k x body).Of (Ty.Named B []) ℓ.run) :
    ℓ.run.Agrees (openAll x body new ℓ.run).2 ∧
    (openAll x body new ℓ.run).1.Of (Ty.Named B []) ℓ.run ∧
    (openAll x body new ℓ.run).1.Resolved ℓ.run.table ∧
    ℓ.form (openAll x body new ℓ.run).1 =
      (ℓ.run.table.formUnder ℓ.label [x] body).instantiate 0 (.const (c.label ℓ.label)) := by
  have hP := Ty.stable_named B
  have ha := (subst_restamped x new body ℓ.run).agrees
  have hover : new.Over ℓ.run ∧ new.Resolved ℓ.run.table := by
    cases hnew with
    | skolem hc => exact ⟨by simpa [Ty.Over] using hc, trivial⟩
    | mvar ho hm => exact ⟨by simpa [Ty.Over] using ho, hm⟩
  have hexp : ℓ.run.table.expand (RankN.openAll x body new ℓ.run).1 =
      (ℓ.run.table.expand body).replace x new := by
    refine (expand_subst ℓ.valid.acyclic x new body).trans ?_
    cases hnew with
    | skolem => rfl
    | mvar _ hm => rw [Table.expand_unsolved hm]
  refine ⟨ha, ⟨?_, ?_⟩, resolved_subst ℓ.valid.acyclic x hover.2 body, ?_⟩
  · exact leaves_subst (fun m t ht => (ℓ.valid.solutions m t ht).isOver) hover.1 h.isOver
  · rw [hexp]
    cases hnew with
    | skolem => exact hP.atSkolem h.mem _
    | mvar => exact hP.atMVar h.mem _
  · refine Table.form_opened (fun ctx => ?_) hexp
    cases hnew with
    | skolem => rfl
    | mvar => rfl

namespace Mirror

variable {B : String → Prop} {w : Mirror B} {t t' u : Ty} {m m' : MVar}

theorem sim_openAll {ε δ : Type} {k k' : Nat} {x y : String} {new new' : Ty} {c c' : Atom}
    (h : w.Like (.all k x t) (.all k' y u)) (hnew : w.left.Fresh new c)
    (hnew' : w.right.Fresh new' c') (hc : c.label w.left.label = c'.label w.right.label) :
    w.Sim (liftM (openAll x t new) : Action ε Ty) (liftM (openAll y u new') : Action δ Ty)
      fun w' a b => w'.Like a b := by
  obtain ⟨hagree, hof, hres, hform⟩ := hnew.openAll h.left
  obtain ⟨hagree', hof', hres', hform'⟩ := hnew'.openAll h.right
  have hbody : w.left.run.table.formUnder w.left.label [x] t =
      w.right.run.table.formUnder w.right.label [y] u := by
    simpa using h.form
  have he := extends_advance hagree.idles hagree'.idles
  refine sim_lift _ he rfl rfl (Like.mono ⟨hof, hof', Labelled.alike hof hof' hres hres' ?_⟩ he)
  rw [hform, hform', hbody, hc]

/-- Quantified types that are alike are opened at skolem constants with the same label. -/
theorem sim_openAll_skolem {ε δ : Type} {k k' : Nat} {x y : String} {c c' : Int}
    (h : w.Like (.all k x t) (.all k' y u)) (hc : w.Like (.skolem c) (.skolem c')) :
    w.Sim (liftM (openAll x t (.skolem c)) : Action ε Ty)
      (liftM (openAll y u (.skolem c')) : Action δ Ty) fun w' a b => w'.Like a b := by
  have hlabel : w.left.label c = w.right.label c' := by simpa using hc.form
  refine sim_openAll h (.skolem ?_) (.skolem ?_) (congrArg Atom.skolem hlabel)
  · simpa [Ty.Over] using hc.left.isOver
  · simpa [Ty.Over] using hc.right.isOver

/-- Quantified types that are alike are opened at unsolved metavariables of the same id. -/
theorem sim_openAll_mvar {ε δ : Type} {k k' : Nat} {x y : String}
    (h : w.Like (.all k x t) (.all k' y u)) (hm : w.Like (.mvar m) (.mvar m'))
    (hu : w.left.run.table.solution? m = none) :
    w.Sim (liftM (openAll x t (.mvar m)) : Action ε Ty)
      (liftM (openAll y u (.mvar m')) : Action δ Ty) fun w' a b => w'.Like a b := by
  refine sim_openAll h (.mvar hm.left.owns hu) (.mvar hm.right.owns (hm.unsolved hu)) ?_
  simp [Atom.label, hm.id]

/-! ## Solving -/

/-- Both runs solve a metavariable, if nothing stands in the way on the left. -/
theorem sim_assign (hm : w.Like (.mvar m) (.mvar m')) (ht : w.Like t t')
    (h : w.left.Solvable m t) :
    w.Sim (assign m t) (assign m' t') fun _ _ _ => True := by
  intro a r hok
  have hassign : (assign m t).Ensures w.left.run
      (fun _ r => t ≠ .absent ∧ r = w.left.run.solved m t) fun _ _ => True :=
    ensures_assign h.owned h.unsolved (fun _ => trivial) fun ht => ⟨ht, rfl⟩
  obtain ⟨hne, rfl⟩ := hassign.of_ok hok
  have hne' : t' ≠ .absent := by
    intro habsent
    have hlike := habsent ▸ ht.alike
    cases hlike
    exact hne rfl
  have h' := hm.solvable ht h (hm.unsolved h.unsolved)
  refine .inr ⟨(), w.solve hm ht h h', extends_solve hm ht h h', rfl, ?_, trivial⟩
  unfold assign
  simp only [h'.owned, hne', Table.solved, h'.unsolved]
  rfl

theorem sim_settle (hm : w.Like (.mvar m) (.mvar m')) (ht : w.Like t t')
    (hu : w.left.run.table.solution? m = none) :
    w.Sim (settle m t) (settle m' t') fun _ _ _ => True := by
  cases hfree : obstacle? w.left.run.table m t with
  | some why =>
    refine sim_of_stops (ensures_settle (fun _ _ => trivial) fun h => ?_)
    rw [hfree] at h
    cases h
  | none =>
    have h : w.left.Solvable m t := ⟨hm.left.owns, hu, ht.left, hfree⟩
    have h' := hm.solvable ht h (hm.unsolved hu)
    refine sim_get_bind ?_
    simp only [hfree, h'.free]
    exact sim_assign hm ht h

end Mirror

end RankN
