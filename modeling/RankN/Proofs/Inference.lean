import RankN.Proofs.Preservation
import RankN.Proofs.Recording

/-!
# Whole inferences

An inference synthesizes a type in the run that its context starts for it, and prunes the answer.
What is known of `synth` in an empty run is therefore known of `Context.infer`, for a context that is
new or starts over.
-/

namespace RankN

open RankN.Action

variable {P : Ty → Prop} {c : Context} {e : Expr} {env : Env}

namespace Context

/-- The next inference starts from an empty run: the context is new, or one has run in it. -/
def Ready (c : Context) : Prop := c.used = true ∨ c.run.Empty

/-- The run in which an inference starts. -/
def start (c : Context) (e : Expr) (env : Env) : Run := (c.reset.above e env).run

theorem Ready.empty_start (h : c.Ready) (e : Expr) (env : Env) : (c.start e env).Empty := by
  have hreset : c.reset.run.Empty := by
    unfold Context.reset
    split
    · exact ⟨rfl, rfl, rfl⟩
    · rename_i hused
      exact h.resolve_left hused
  exact ⟨hreset.table, hreset.mvars, hreset.skolems⟩

/-- The context in which an inference starts. -/
def opened (c : Context) (e : Expr) (env : Env) : Context :=
  { c.reset with used := true }.above e env

/-- Synthesize a type for a whole expression, and prune it. -/
def synthPruned (env : Env) (e : Expr) : Infer Ty := do
  let t ← synth { env } .empty e
  prune t

/-- Writing a failure down leaves the run alone. -/
theorem run_record (c : Context) (rejection : Rejection) : (c.record rejection).run = c.run := by
  unfold record
  split <;> rfl

theorem listening_record (c : Context) (rejection : Rejection) :
    (c.record rejection).listening = c.listening := by
  unfold record
  split <;> rfl

/-- An inference synthesizes a type, and its failure is written down. -/
theorem infer_eq_recorded (c : Context) (he : e ≠ .absent) (henv : env ≠ []) :
    c.infer e env = (c.opened e env).tryInfer (recorded (synthPruned env e)) := by
  have hsynth : recorded (synth { env } .empty e) = Inferring.synth { env } .empty e :=
    (infer_recorded e).2 { env } .empty
  rw [synthPruned, recorded_bind, hsynth]
  simp only [infer, he, henv, if_false, opened]
  rfl

/-- **How an inference ends**: with what is synthesized in the run that it starts, which takes the
place of the run before. A failure is remembered. -/
theorem infer_cases (c : Context) (he : e ≠ .absent) (henv : env ≠ []) :
    (∃ T r, synthPruned env e (c.start e env) = .ok T r ∧
      c.infer e env = (.ok T, { c.opened e env with run := r })) ∨
    (∃ rejection r, synthPruned env e (c.start e env) = .error (.error rejection) r ∧
      c.infer e env = (.error (.error rejection.error),
        { c.opened e env with run := r }.record rejection)) ∨
    ∃ f r, synthPruned env e (c.start e env) = .error (.fault f) r ∧
      c.infer e env = (.error (.fault f), { c.opened e env with run := r }) := by
  have hrun : (c.opened e env).run = c.start e env := rfl
  rw [c.infer_eq_recorded he henv, tryInfer, recorded, hrun]
  cases hx : synthPruned env e (c.start e env) with
  | ok T r => exact .inl ⟨T, r, rfl, rfl⟩
  | error stop r =>
    cases stop with
    | error rejection => exact .inr (.inl ⟨rejection, r, rfl, rfl⟩)
    | fault f => exact .inr (.inr ⟨f, r, rfl, rfl⟩)

/-- The answer of an inference is the pruned type that is synthesized. -/
theorem infer_eq_ok {T : Ty} {c' : Context} (h : c.infer e env = (.ok T, c')) :
    ∃ t r, synth { env } .empty e (c.start e env) = .ok t r ∧ (prune t r).1 = T ∧
      (prune t r).2 = c'.run := by
  by_cases he : e = .absent
  · simp [infer, he] at h
  by_cases henv : env = []
  · simp [infer, he, henv] at h
  rcases c.infer_cases he henv with ⟨T', r, hx, h'⟩ | ⟨rejection, r, -, h'⟩ | ⟨f, r, -, h'⟩ <;>
    rw [h'] at h <;> cases h
  obtain ⟨t, r₁, ht, hp⟩ := bind_eq_ok.1 hx
  rw [lift_apply] at hp
  cases hp
  exact ⟨t, r₁, ht, rfl, rfl⟩

/-- If a type is synthesized, the inference answers. -/
theorem infer_of_synth (he : e ≠ .absent) (henv : env ≠ []) {t : Ty} {r : Run}
    (h : synth { env } .empty e (c.start e env) = .ok t r) :
    (c.infer e env).1 = .ok (prune t r).1 := by
  have hx : synthPruned env e (c.start e env) = .ok (prune t r).1 (prune t r).2 :=
    bind_eq_ok.2 ⟨t, r, h, lift_apply _ _⟩
  rcases c.infer_cases he henv with ⟨T, r', h', heq⟩ | ⟨rejection, r', h', heq⟩ | ⟨f, r', h', heq⟩ <;>
    rw [hx] at h' <;> cases h'
  rw [heq]

end Context

/-! ## What an inference is given -/

/-- A type without metavariables and skolem constants. -/
def Ty.Ground (t : Ty) : Prop := t.Leaves (fun _ => False) fun _ => False

instance (t : Ty) : Decidable t.Ground := inferInstanceAs (Decidable (t.Leaves _ _))

/-- A ground type is a type of every run. -/
theorem Ty.Ground.of {t : Ty} (h : t.Ground) (ht : P t.plain) (r : Run) : t.Of P r := by
  refine ⟨h.mono (fun _ => False.elim) fun _ => False.elim, ?_⟩
  rwa [Table.expand_of_unsolved fun m hm => (h.1 m hm).elim]

/-- All types that an environment declares, as far as they can be seen, are in `P`. -/
def Env.Every (P : Ty → Prop) (env : Env) : Prop := ∀ x t, env.find? x = some t → P t

theorem Env.every_of_declared {env : Env} (h : ∀ layer ∈ env, ∀ d ∈ layer, P d.2) :
    env.Every P := by
  intro x t hx
  obtain ⟨layer, hl, hd⟩ := List.exists_of_findSome?_eq_some hx
  obtain ⟨l₁, l₂, rfl, -⟩ := List.lookup_eq_some_iff.1 hd
  exact h _ hl (x, t) (by simp)

/-- Whatever run it starts in, an inference may be given ground types. -/
theorem given_of_ground (henv : env.Every fun t => t.Ground ∧ P t.plain)
    (he : e.Every fun t => t.Ground ∧ P t.plain) (r : Run) :
    Given P r { env } .empty e where
  scope id hid := absurd hid Scope.not_mem_empty
  names := ⟨fun x t h => by simp [Layer.find?] at h, fun x t h => (henv x t h).1.of (henv x t h).2 r⟩
  expr t ht := (he t ht).1.of (he t ht).2 r

end RankN
